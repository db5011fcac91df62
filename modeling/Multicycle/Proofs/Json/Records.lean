/-
The parts of a record as they are written: numbers in fields, the fields with their keys, and members of
an object. Members may give the fields in any order, each at most once, among unknown keys with any
values; they are read as the updates of the fields that they give.
-/
import Multicycle.Proofs.Json.Range
import Multicycle.Proofs.Json.Values

namespace Multicycle.Json

/-! ## Numbers in fields -/

section
variable (w : Numeric) {bound : Nat} (gap : Gap) {rest : List Char}

theorem natural_chars (hfinite : w.number.isFinite = true) (hrest : Ends rest) :
    natural bound (gap.chars ++ (w.chars ++ rest)) =
      match w.number.toNat? with
      | some v => if v < bound then .ok (v, rest) else .error .mismatch
      | none => .error .mismatch := by
  obtain ⟨c, cs, hcs, hc⟩ := w.head_chars
  have hread := w.read_chars hrest
  rw [hcs, List.cons_append] at hread
  have hnumber : finiteNumber (c :: (cs ++ rest)) = .ok (w.number, rest) := by
    rw [finiteNumber, hread]
    exact if_pos hfinite
  rw [natural, skipBlanks_gap, hcs, List.cons_append, skipBlanks_cons (isBlank_of_startsNumber hc)]
  dsimp only
  rw [if_pos hc, hnumber]
  rfl

/-- The plain decimal of a number below the bound is read as that number. -/
theorem natural_decimal {n : Nat} (hn : n < bound) (hbound : bound ≤ UInt64.size)
    (hrest : Ends rest) :
    natural bound (gap.chars ++ (Nat.toDigits 10 n ++ rest)) = .ok (n, rest) := by
  have hsmall : n < 10 ^ 20 := (hn.trans_le hbound).trans (by decide)
  have hlength : (Nat.toDigits 10 n).length ≤ 20 :=
    (Nat.length_toDigits_le_iff (by decide) (by decide)).2 hsmall
  have hfinite : (Numeric.decimal n).number.isFinite = true :=
    Numeric.isFinite_number rfl (hlength.trans (by decide))
  have hvalue : (Numeric.decimal n).number.toNat? = some n := by
    show some (Number.value (Nat.toDigits 10 n)) = some n
    rw [Number.value_toDigits]
  rw [← Numeric.chars_decimal, natural_chars _ gap hfinite hrest, hvalue]
  exact if_pos hn

end

/-- A number without exponent and of at most 300 digits that a field below `bound` does not take: it is
negative, even if it is zero, has a fraction or is too large. -/
structure Numeric.Misfits (w : Numeric) (bound : Nat) : Prop where
  exponent : w.number.exponent = none
  short : w.number.whole.length + (w.number.fraction.getD []).length ≤ 300
  wrong : w.number.negative = true ∨ w.number.fraction ≠ none ∨
    bound ≤ Nat.ofDigitChars 10 w.number.whole 0

theorem natural_misfit {w : Numeric} {bound : Nat} (h : w.Misfits bound) (gap : Gap)
    {rest : List Char} (hrest : Ends rest) :
    natural bound (gap.chars ++ (w.chars ++ rest)) = .error .mismatch := by
  rw [natural_chars w gap (Numeric.isFinite_number h.exponent h.short) hrest]
  cases hvalue : w.number.toNat? with
  | none => rfl
  | some v =>
    unfold Number.toNat? at hvalue
    split at hvalue
    · cases hvalue
    · rename_i hplain
      cases hvalue
      rw [not_or, not_or, Option.not_isSome_iff_eq_none] at hplain
      refine if_neg (Nat.not_lt.2 ?_)
      rw [Number.value_eq_ofDigitChars]
      rcases h.wrong with hnegative | hfraction | hlarge
      · exact absurd hnegative hplain.1
      · exact absurd hplain.2.1 hfraction
      · exact hlarge

/-! ## Fields -/

variable {σ κ : Type}

/-- The fields of a record by their names. No two of them have one key. -/
structure Schema (σ κ : Type) where
  names : List κ
  entry : κ → Entry σ
  nodup : (names.map fun k => (entry k).key).Nodup

namespace Schema

variable (S : Schema σ κ) {k k' : κ}

def fields : List (Entry σ) := S.names.map S.entry

theorem eq_of_key_eq (hk : k ∈ S.names) (hk' : k' ∈ S.names)
    (h : (S.entry k).key = (S.entry k').key) : k = k' :=
  List.inj_on_of_nodup_map S.nodup hk hk' h

theorem find?_key (hk : k ∈ S.names) :
    S.fields.find? (fun field => field.key.toList = (S.entry k).key.toList) = some (S.entry k) := by
  have hsome : (S.fields.find? fun field => field.key.toList = (S.entry k).key.toList).isSome := by
    rw [List.find?_isSome]
    exact ⟨S.entry k, List.mem_map_of_mem hk, decide_eq_true rfl⟩
  obtain ⟨field, hfield⟩ := Option.isSome_iff_exists.1 hsome
  obtain ⟨k', hk', rfl⟩ := List.mem_map.1 (List.mem_of_find?_eq_some hfield)
  have hfound := List.find?_some hfield
  have hkey : (S.entry k').key.toList = (S.entry k).key.toList := of_decide_eq_true hfound
  rw [hfield, S.eq_of_key_eq hk' hk (String.toList_inj.1 hkey)]

theorem find?_eq_none {text : List Char} (h : ∀ k ∈ S.names, (S.entry k).key.toList ≠ text) :
    S.fields.find? (fun field => field.key.toList = text) = none := by
  rw [List.find?_eq_none]
  intro field hfield
  obtain ⟨k, hk, rfl⟩ := List.mem_map.1 hfield
  rw [decide_eq_true_eq]
  exact h k hk

end Schema

/-- A text that a reader takes whole for an update, whatever blanks are in front of it. It starts with
what neither is a blank nor ends an array. -/
structure Reader.Takes (read : Reader σ) (text : List Char) (update : σ → σ) : Prop where
  opens : ∃ c cs, text = c :: cs ∧ isBlank c = false ∧ c ≠ ']'
  read_eq : ∀ (gap : Gap) (s : σ) {rest : List Char}, Ends rest →
    read s (gap.chars ++ (text ++ rest)) = .ok (update s, rest)

/-- A text that a reader refuses for the value that stands at its start. -/
def Reader.Refuses (read : Reader σ) (text : List Char) : Prop :=
  ∀ (gap : Gap) (s : σ), read s (gap.chars ++ text) = .error .mismatch

/-! ## Members and elements -/

/-- What a member of an object is about: a field, whose text is told elsewhere, or a value that is
skipped. -/
inductive Content (κ : Type) where
  | field (k : κ)
  | extra (v : Value)

/-- A member of an object, with the blanks in front of its comma. -/
structure Member (κ : Type) where
  front : Gap
  name : Name
  content : Content κ

/-- An element of an array, with the blanks around its comma. -/
structure Element (κ : Type) where
  front : Gap
  lead : Gap
  name : κ

/-- What stands in front of every entry but the first. -/
def comma (first : Bool) : List Char := if first then [] else [',']

/-- Entries one after another. -/
def listed {ι : Type} (item : Bool → ι → List Char) : Bool → List ι → List Char
  | _, [] => []
  | first, x :: xs => item first x ++ listed item false xs

def Content.chars (text : κ → List Char) : Content κ → List Char
  | .field k => text k
  | .extra v => v.chars

def Member.chars (text : κ → List Char) (first : Bool) (m : Member κ) : List Char :=
  m.front.chars ++ (comma first ++ (m.name.chars ++ m.content.chars text))

def Element.chars (text : κ → List Char) (first : Bool) (e : Element κ) : List Char :=
  e.front.chars ++ (comma first ++ (e.lead.chars ++ text e.name))

def Member.field? (m : Member κ) : Option κ :=
  match m.content with
  | .field k => some k
  | .extra _ => none

/-- A member has the key of its field, or one that no field has. -/
def Member.Fits (S : Schema σ κ) (m : Member κ) : Prop :=
  match m.content with
  | .field k => k ∈ S.names ∧ m.name.pieces.Spells (S.entry k).key.toList
  | .extra _ => ∃ text, m.name.pieces.Spells text ∧ ∀ k ∈ S.names, (S.entry k).key.toList ≠ text

/-- The fields that members give, in their order. -/
def given (ms : List (Member κ)) : List κ := ms.filterMap Member.field?

/-- The updates of some fields, one after another. -/
def updates (update : κ → σ → σ) (ks : List κ) (s : σ) : σ := ks.foldl (fun s k => update k s) s

/-- What stands at one place after some updates: what its update writes, or what was there before. -/
theorem get_updates [DecidableEq κ] {V : κ → Type} (get : (k : κ) → σ → V k) {value : (k : κ) → V k}
    {update : κ → σ → σ} (hself : ∀ k s, get k (update k s) = value k)
    (hother : ∀ k k' s, k' ≠ k → get k' (update k s) = get k' s) (ks : List κ) (k : κ) (s : σ) :
    get k (updates update ks s) = if k ∈ ks then value k else get k s := by
  induction ks generalizing s with
  | nil => rfl
  | cons k' ks ih =>
    have htail : get k (updates update (k' :: ks) s) = _ := ih (update k' s)
    rw [htail]
    by_cases hk : k = k'
    · subst hk
      simp [hself]
    · simp [hk, hother k' k s hk]

/-! ## One member -/

theorem nextEntry_comma (cs : List Char) :
    nextEntry false (',' :: cs) =
      match skipBlanks cs with
      | [] => .error .truncated
      | cs => .ok cs := rfl

/-- What comes in front of an entry is passed over. -/
theorem nextEntry_chars (first : Bool) (front : Gap) {c : Char} {entry cs : List Char}
    (h : skipBlanks entry = c :: cs) :
    ∃ d ds, (d = c ∨ d = ',') ∧ skipBlanks (front.chars ++ (comma first ++ entry)) = d :: ds ∧
      nextEntry first (d :: ds) = .ok (c :: cs) := by
  rw [skipBlanks_gap]
  cases first with
  | true => exact ⟨c, cs, .inl rfl, h, rfl⟩
  | false =>
    refine ⟨',', entry, .inr rfl, skipBlanks_cons (by decide) entry, ?_⟩
    rw [nextEntry_comma, h]

section
variable (fields : List (Entry σ)) (bound : Nat) (first : Bool) (seen : List String) (s : σ)

theorem readMembers_start {c : Char} (hc : c ≠ '}') {cs cs' : List Char}
    (hcs : skipBlanks cs = c :: cs') :
    readMembers fields (bound + 1) first seen s cs =
      nextEntry first (c :: cs') >>= fun cs =>
        readMember fields bound seen s cs >>= fun r =>
          readMembers fields bound false r.1.1 r.1.2 r.2 := by
  rw [readMembers, hcs]
  split
  all_goals rename_i heq
  · cases heq
  · exact absurd (List.cons.inj heq).1 hc
  · rfl

/-- The start of a member is passed over up to its key. -/
theorem readMembers_enter (front lead : Gap) (cs : List Char) :
    readMembers fields (bound + 1) first seen s
        (front.chars ++ (comma first ++ (lead.chars ++ '"' :: cs))) =
      readMember fields bound seen s ('"' :: cs) >>= fun r =>
        readMembers fields bound false r.1.1 r.1.2 r.2 := by
  have hskip : skipBlanks (lead.chars ++ '"' :: cs) = '"' :: cs := by
    rw [skipBlanks_gap, skipBlanks_cons (by decide)]
  obtain ⟨d, ds, hd, hds, hnext⟩ := nextEntry_chars first front hskip
  have hbrace : d ≠ '}' := by rcases hd with rfl | rfl <;> decide
  rw [readMembers_start fields bound first seen s hbrace hds, hnext, ok_bind]

theorem readMembers_close (gap : Gap) (cs : List Char) :
    readMembers fields (bound + 1) first seen s (gap.chars ++ '}' :: cs) = .ok (s, cs) := by
  rw [readMembers, skipBlanks_gap, skipBlanks_cons (by decide)]
  rfl

end

section
variable (S : Schema σ κ) {bound : Nat} {seen : List String} {k : κ} (s : σ)

theorem readMember_tail_field (hk : k ∈ S.names) (hseen : (S.entry k).key ∉ seen) {n : Name}
    (hname : n.pieces.Spells (S.entry k).key.toList) (hbound : n.pieces.length < bound)
    (cs : List Char) :
    readMember S.fields bound seen s ('"' :: (n.tail ++ cs)) =
      (S.entry k).read s (n.ahead.chars ++ cs) >>= fun r =>
        .ok (((S.entry k).key :: seen, r.1), r.2) := by
  unfold Name.tail
  simp only [List.append_assoc, List.cons_append]
  rw [readMember, string_chars hname hbound, ok_bind]
  dsimp only
  rw [S.find?_key hk]
  dsimp only
  rw [if_neg hseen, colon_gap, ok_bind]

theorem readMember_tail_extra {n : Name} {text : List Char} (hname : n.pieces.Spells text)
    (hnone : ∀ k ∈ S.names, (S.entry k).key.toList ≠ text) (hbound : n.pieces.length < bound)
    {v : Value} (hv : v.chars.length ≤ bound) {rest : List Char} (hrest : Ends rest) :
    readMember S.fields bound seen s ('"' :: (n.tail ++ (v.chars ++ rest))) =
      .ok ((seen, s), rest) := by
  unfold Name.tail
  simp only [List.append_assoc, List.cons_append]
  rw [readMember, string_chars hname hbound, ok_bind]
  dsimp only
  rw [S.find?_eq_none hnone]
  dsimp only
  rw [colon_gap, ok_bind, skipValue_gap, v.skip hv hrest]
  rfl

/-- A key that was there before is refused as soon as it is read. -/
theorem readMember_repeated (hk : k ∈ S.names) (hseen : (S.entry k).key ∈ seen) {ps : Pieces}
    (hps : ps.Spells (S.entry k).key.toList) (hbound : ps.length < bound) (cs : List Char) :
    readMember S.fields bound seen s ('"' :: (ps.chars ++ '"' :: cs)) = .error .mismatch := by
  rw [readMember, string_chars hps hbound, ok_bind]
  dsimp only
  rw [S.find?_key hk]
  exact if_pos hseen

end

/-! ## Members one after another -/

theorem given_cons (m : Member κ) (ms : List (Member κ)) :
    given (m :: ms) = m.field?.toList ++ given ms := by
  unfold given
  cases h : m.field? with
  | none => rw [List.filterMap_cons_none h, Option.toList_none, List.nil_append]
  | some k => rw [List.filterMap_cons_some h, Option.toList_some, List.singleton_append]

/-- The fields of members that fit are fields of the record. -/
theorem mem_names_of_fits {S : Schema σ κ} {m : Member κ} (hm : m.Fits S) {k : κ}
    (hk : k ∈ m.field?.toList) : k ∈ S.names := by
  obtain ⟨front, n, content⟩ := m
  cases content with
  | field k' =>
    rw [List.mem_singleton.1 hk]
    exact hm.1
  | extra v => cases hk

theorem mem_names_of_given {S : Schema σ κ} {ms : List (Member κ)} (hfits : ∀ m ∈ ms, m.Fits S) {k : κ}
    (hk : k ∈ given ms) : k ∈ S.names := by
  obtain ⟨m, hm, hfield⟩ := List.mem_filterMap.1 hk
  exact mem_names_of_fits (hfits m hm) (by simp [hfield])

/-- Once a member is read, the keys that are still to come have not been seen. -/
theorem fresh_tail {S : Schema σ κ} {m : Member κ} {ms : List (Member κ)}
    (hfits : ∀ m' ∈ m :: ms, m'.Fits S) (hnodup : (given (m :: ms)).Nodup) {seen : List String}
    (hfresh : ∀ k ∈ given (m :: ms), (S.entry k).key ∉ seen) :
    ∀ k ∈ given ms, (S.entry k).key ∉ (m.field?.toList.map fun k => (S.entry k).key) ++ seen := by
  rw [given_cons] at hnodup hfresh
  intro k hk hmem
  rcases List.mem_append.1 hmem with hmem | hmem
  · obtain ⟨k', hk', hkey⟩ := List.mem_map.1 hmem
    have hname' : k' ∈ S.names := mem_names_of_fits (hfits m List.mem_cons_self) hk'
    have hname : k ∈ S.names :=
      mem_names_of_given (fun m' hm' => hfits m' (List.mem_cons_of_mem _ hm')) hk
    exact (List.nodup_append.1 hnodup).2.2 k' hk' k hk (S.eq_of_key_eq hname' hname hkey)
  · exact hfresh k (List.mem_append_right _ hk) hmem

theorem ends_listed {text : κ → List Char} (ms : List (Member κ)) {rest : List Char}
    (hrest : Ends rest) : Ends (listed (Member.chars text) false ms ++ rest) := by
  cases ms with
  | nil => exact hrest
  | cons m ms =>
    simp only [listed, Member.chars, comma, List.append_assoc]
    exact Ends.gap_append (ends_cons (.inr (.inl rfl)) _) m.front

section
variable (S : Schema σ κ) {text : κ → List Char} {update : κ → σ → σ}
  (htakes : ∀ k ∈ S.names, (S.entry k).read.Takes (text k) (update k))
include htakes

/-- One member is read as the update of its field, if it has one. -/
theorem readMembers_member {m : Member κ} (hm : m.Fits S) {seen : List String}
    (hfresh : ∀ k ∈ m.field?.toList, (S.entry k).key ∉ seen) {rest : List Char} (hrest : Ends rest)
    (first : Bool) (s : σ) {bound : Nat} (hbound : (m.chars text first ++ rest).length ≤ bound) :
    readMembers S.fields (bound + 1) first seen s (m.chars text first ++ rest) =
      readMembers S.fields bound false ((m.field?.toList.map fun k => (S.entry k).key) ++ seen)
        (updates update m.field?.toList s) rest := by
  obtain ⟨front, n, content⟩ := m
  simp only [Member.chars, List.length_append] at hbound
  have hpieces : n.pieces.length < bound := by
    have hname := n.pieces_lt_length_chars
    omega
  unfold Member.chars Name.chars
  simp only [List.append_assoc, List.cons_append]
  rw [readMembers_enter]
  cases content with
  | field k =>
    obtain ⟨hk, hspells⟩ := hm
    rw [readMember_tail_field S s hk (hfresh k (List.mem_singleton_self k)) hspells hpieces,
      Content.chars, (htakes k hk).read_eq n.ahead s hrest, ok_bind, ok_bind]
    rfl
  | extra v =>
    obtain ⟨t, hspells, hnone⟩ := hm
    rw [Content.chars] at hbound ⊢
    rw [readMember_tail_extra S s hspells hnone hpieces (by omega) hrest, ok_bind]
    rfl

/-- Members that fit are read as the updates of the fields they give, which have then been seen. The
characters that are left stay below the bound. -/
theorem readMembers_listed {ms : List (Member κ)} (hfits : ∀ m ∈ ms, m.Fits S)
    (hnodup : (given ms).Nodup) {seen : List String}
    (hfresh : ∀ k ∈ given ms, (S.entry k).key ∉ seen) {rest : List Char} (hrest : Ends rest)
    (first : Bool) (s : σ) {bound : Nat}
    (hbound : (listed (Member.chars text) first ms ++ rest).length < bound) :
    ∃ bound', rest.length < bound' ∧
      readMembers S.fields bound first seen s (listed (Member.chars text) first ms ++ rest) =
        readMembers S.fields bound' (first && ms.isEmpty)
          (((given ms).map fun k => (S.entry k).key).reverse ++ seen)
          (updates update (given ms) s) rest := by
  induction ms generalizing first seen s bound with
  | nil => exact ⟨bound, hbound, by rw [List.isEmpty_nil, Bool.and_true]; rfl⟩
  | cons m ms ih =>
    obtain ⟨bound, rfl⟩ : ∃ b, bound = b + 1 := ⟨bound - 1, by omega⟩
    have hm := hfits m List.mem_cons_self
    have htail : (given ms).Nodup := by
      rw [given_cons] at hnodup
      exact hnodup.of_append_right
    have hhead : ∀ k ∈ m.field?.toList, (S.entry k).key ∉ seen := by
      rw [given_cons] at hfresh
      exact fun k hk => hfresh k (List.mem_append_left _ hk)
    rw [listed, List.append_assoc] at hbound ⊢
    have hleft : (listed (Member.chars text) false ms ++ rest).length < bound := by
      have hname := m.name.pieces_lt_length_chars
      simp only [Member.chars, List.length_append] at hbound ⊢
      omega
    obtain ⟨bound', hbound', hrun⟩ := ih (fun m hm => hfits m (List.mem_cons_of_mem _ hm)) htail
      (fresh_tail hfits hnodup hfresh) false (updates update m.field?.toList s) hleft
    refine ⟨bound', hbound', ?_⟩
    rw [readMembers_member S htakes hm hhead (ends_listed ms hrest) first s
      (Nat.le_of_lt_succ hbound), hrun]
    have hreverse : (m.field?.toList.map fun k => (S.entry k).key).reverse =
        m.field?.toList.map fun k => (S.entry k).key := by cases m.field? <;> rfl
    rw [given_cons, List.isEmpty_cons, Bool.and_false, Bool.false_and, List.map_append,
      List.reverse_append, hreverse, List.append_assoc, updates, updates, updates, List.foldl_append]

end

end Multicycle.Json

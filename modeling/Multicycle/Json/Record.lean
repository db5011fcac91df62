/-
Records: an object whose known keys set the fields of a record, or an array that lists the fields in
order and may stop early. Unknown keys are skipped, a known key may appear once, and a field that is
not given keeps the value it had.
-/
import Multicycle.Json.Skip

namespace Multicycle.Json

/-- Reads a value into a record of type `σ`. -/
abbrev Reader (σ : Type) := σ → List Char → Except Fault (σ × List Char)

/-- A field of a record: its key, and how its value is read into the record. -/
structure Entry (σ : Type) where
  key : String
  read : Reader σ

/-! ## Values that do not belong -/

/-- What is left after a literal, a number or a string that is complete. -/
def scalar : List Char → Except Fault (List Char)
  | 'n' :: cs => literal ['u', 'l', 'l'] cs
  | 't' :: cs => literal ['r', 'u', 'e'] cs
  | 'f' :: cs => literal ['a', 'l', 's', 'e'] cs
  | '"' :: cs => do
    let (_, cs) ← string (cs.length + 1) cs
    .ok cs
  | cs => do
    let (_, cs) ← finiteNumber cs
    .ok cs

/-- The fault of a value of the wrong kind. An array or an object is told by its bracket, anything
else only once it is complete. -/
def misplaced (cs : List Char) : Fault :=
  match cs with
  | '[' :: _ | '{' :: _ => .mismatch
  | cs =>
    match scalar cs with
    | .ok _ => .mismatch
    | .error fault => fault

/-! ## Numbers -/

/-- A number below `bound`, written with digits alone. -/
def natural (bound : Nat) (cs : List Char) : Except Fault (Nat × List Char) :=
  match skipBlanks cs with
  | [] => .error .truncated
  | c :: cs =>
    if c = '-' ∨ c.isDigit then do
      let (n, cs) ← finiteNumber (c :: cs)
      match n.toNat? with
      | some v => if v < bound then .ok (v, cs) else .error .mismatch
      | none => .error .mismatch
    else .error (misplaced (c :: cs))

/-! ## Records -/

variable {σ : Type}

/-- The start of the next entry of an array or object, past the comma in front of every entry but
the first. -/
def nextEntry (first : Bool) (cs : List Char) : Except Fault (List Char) :=
  if first then .ok cs
  else match cs with
    | ',' :: cs =>
      match skipBlanks cs with
      | [] => .error .truncated
      | cs => .ok cs
    | _ => .error .malformed

/-- The fields in order, from behind an opening bracket or after an element, to the closing
bracket. -/
def readElements : List (Entry σ) → Bool → Reader σ
  | [], _, s, cs =>
    match skipBlanks cs with
    | [] => .error .truncated
    | ']' :: cs => .ok (s, cs)
    | _ => .error .malformed
  | field :: fields, first, s, cs =>
    match skipBlanks cs with
    | [] => .error .truncated
    | ']' :: cs => .ok (s, cs)
    | cs => do
      match ← nextEntry first cs with
      | ']' :: _ => .error .malformed
      | cs =>
        let (s, cs) ← field.read s cs
        readElements fields false s cs

/-- One member of an object from its key on: sets a field that is not among those already `seen`, or
skips the value of an unknown key. Gives the fields seen after it. -/
def readMember (fields : List (Entry σ)) (bound : Nat) (seen : List String) (s : σ)
    (cs : List Char) : Except Fault ((List String × σ) × List Char) :=
  match cs with
  | '"' :: cs => do
    let (key, cs) ← string bound cs
    match fields.find? (fun field => field.key.toList = key) with
    | some field =>
      if field.key ∈ seen then .error .mismatch
      else do
        let (s, cs) ← field.read s (← colon cs)
        .ok ((field.key :: seen, s), cs)
    | none => do
      let cs ← skipValue bound (← colon cs)
      .ok ((seen, s), cs)
  | _ => .error .malformed

/-- The members of an object, from behind the opening brace or after a member, to the closing
brace. -/
def readMembers (fields : List (Entry σ)) : Nat → Bool → List String → Reader σ
  | 0, _, _, _, _ => .error .malformed
  | bound + 1, first, seen, s, cs =>
    match skipBlanks cs with
    | [] => .error .truncated
    | '}' :: cs => .ok (s, cs)
    | cs => do
      let ((seen, s), cs) ← readMember fields bound seen s (← nextEntry first cs)
      readMembers fields bound false seen s cs

def record (fields : List (Entry σ)) : Reader σ := fun s cs =>
  match skipBlanks cs with
  | [] => .error .truncated
  | '[' :: cs => readElements fields true s cs
  | '{' :: cs => readMembers fields (cs.length + 1) true [] s cs
  | cs => .error (misplaced cs)

/-- A whole document that is one record: nothing but blanks may follow it. -/
def document (fields : List (Entry σ)) (s : σ) (text : String) : Except Fault σ := do
  let (s, cs) ← record fields s text.toList
  match skipBlanks cs with
  | [] => .ok s
  | _ => .error .malformed

end Multicycle.Json

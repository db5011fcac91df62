/-
The lexemes of JSON: blanks, the three literals, numbers and strings. Each reader takes the
characters that are left and gives back those that are left after it, or says what is wrong with the
first lexeme. What can go on for ever has a bound on its steps, of which each takes a character: a
bound above the number of characters left is never used up.
-/
import Multicycle.Binary64
import Multicycle.Numeral

namespace Multicycle.Json

/-- What is wrong with a document. -/
inductive Fault where
  /-- It is not JSON, or its shape does not end where it should. -/
  | malformed
  /-- It is JSON up to here, but the value is not one that belongs here. -/
  | mismatch
  | truncated
  deriving DecidableEq

/-! ## Blanks and literals -/

/-- The four characters that may stand between lexemes. -/
def isBlank (c : Char) : Bool := c == ' ' || c == '\n' || c == '\t' || c == '\r'

def skipBlanks (cs : List Char) : List Char := cs.dropWhile isBlank

/-- What is left after exactly the characters of a word. -/
def literal : List Char → List Char → Except Fault (List Char)
  | [], cs => .ok cs
  | _ :: _, [] => .error .truncated
  | w :: word, c :: cs => if c = w then literal word cs else .error .malformed

/-! ## Numbers -/

/-- A number as written: its digits before the point, those after it and the exponent where there
are any; an exponent is its digits and whether it is negative. -/
structure Number where
  negative : Bool
  whole : List Char
  fraction : Option (List Char)
  exponent : Option (Bool × List Char)
  deriving DecidableEq

namespace Number

/-- One or more decimal digits, as many as there are. -/
def digits : List Char → Except Fault (List Char × List Char)
  | [] => .error .truncated
  | c :: cs =>
    if c.isDigit then .ok (c :: cs.takeWhile Char.isDigit, cs.dropWhile Char.isDigit)
    else .error .malformed

/-- The digits before the point, which start with a zero only when it stands alone. -/
def readWhole (cs : List Char) : Except Fault (List Char × List Char) := do
  let (ds, cs) ← digits cs
  if ds.head? = some '0' ∧ ds.length ≠ 1 then .error .malformed else .ok (ds, cs)

def readFraction : List Char → Except Fault (Option (List Char) × List Char)
  | '.' :: cs => do
    let (ds, cs) ← digits cs
    .ok (some ds, cs)
  | cs => .ok (none, cs)

/-- A sign, if there is one: whether it is a minus. -/
def readSign : List Char → Bool × List Char
  | '-' :: cs => (true, cs)
  | '+' :: cs => (false, cs)
  | cs => (false, cs)

def readExponent : List Char → Except Fault (Option (Bool × List Char) × List Char)
  | 'e' :: cs | 'E' :: cs => do
    let (negative, cs) := readSign cs
    let (ds, cs) ← digits cs
    .ok (some (negative, ds), cs)
  | cs => .ok (none, cs)

def readUnsigned (negative : Bool) (cs : List Char) : Except Fault (Number × List Char) := do
  let (whole, cs) ← readWhole cs
  let (fraction, cs) ← readFraction cs
  let (exponent, cs) ← readExponent cs
  .ok ({ negative, whole, fraction, exponent }, cs)

def read : List Char → Except Fault (Number × List Char)
  | '-' :: cs => readUnsigned true cs
  | cs => readUnsigned false cs

def value (ds : List Char) : Nat := Numeral.ofDigits 10 (ds.map fun c => c.toNat - 48)

/-- The number itself if it is written with nothing but digits. -/
def toNat? (n : Number) : Option Nat :=
  if n.negative ∨ n.fraction.isSome ∨ n.exponent.isSome then none else some (value n.whole)

/-- The longest run of digits after `acc` whose value stays within 64 bits, as that value and the
digits left over. -/
def leading (acc : Nat) : List Char → Nat × List Char
  | [] => (acc, [])
  | c :: cs =>
    let next := 10 * acc + (c.toNat - 48)
    if next < UInt64.size then leading next cs else (acc, c :: cs)

/-- Whether `significand * 10 ^ exponent`, with either factor a double, lies in the range of a
double. The powers of ten of a double end at 308. -/
def scaledFinite (significand : Nat) (exponent : Int) : Bool :=
  significand == 0 || exponent ≤ 0 ||
    (exponent ≤ 308 &&
      ((Binary64.ofNat significand).mul (.ofNat (Nat.pow 10 exponent.toNat))).isFinite)

/-- Whether the number lies in the range of a double, its significand cut to 64 bits. -/
def isFinite (n : Number) : Bool :=
  let fraction := n.fraction.getD []
  let (significand, dropped) := leading 0 n.whole
  let (significand, unread) := leading significand fraction
  let shift : Int := match n.exponent with
    | none => 0
    | some (true, ds) => -(value ds : Int)
    | some (false, ds) => value ds
  scaledFinite significand (dropped.length - (fraction.length - unread.length : Nat) + shift)

end Number

def finiteNumber (cs : List Char) : Except Fault (Number × List Char) := do
  let (n, cs) ← Number.read cs
  if n.isFinite then .ok (n, cs) else .error .malformed

/-! ## Strings -/

def shortEscape? : Char → Option Char
  | '"' => some '"'
  | '\\' => some '\\'
  | '/' => some '/'
  | 'b' => some '\x08'
  | 'f' => some '\x0c'
  | 'n' => some '\n'
  | 'r' => some '\r'
  | 't' => some '\t'
  | _ => none

/-- Four hexadecimal digits as a number. When fewer than four bytes of text are left it is the end
of the text that is at fault, whatever they are. -/
def codeUnit (cs : List Char) : Except Fault (Nat × List Char) :=
  if (String.ofList (cs.take 4)).utf8ByteSize < 4 then .error .truncated
  else match cs with
    | a :: b :: c :: d :: cs =>
      match [a, b, c, d].mapM Numeral.hexDigit? with
      | some ds => .ok (Numeral.ofDigits 16 ds, cs)
      | none => .error .malformed
    | _ => .error .malformed

def lowSurrogate : List Char → Except Fault (Nat × List Char)
  | [] | ['\\'] => .error .truncated
  | '\\' :: 'u' :: cs => do
    let (low, cs) ← codeUnit cs
    if 0xdc00 ≤ low ∧ low ≤ 0xdfff then .ok (low, cs) else .error .malformed
  | _ => .error .malformed

/-- The character of a numbered escape: one code unit, or two that are a surrogate pair. -/
def codePoint (cs : List Char) : Except Fault (Char × List Char) := do
  let (unit, cs) ← codeUnit cs
  if 0xdc00 ≤ unit ∧ unit ≤ 0xdfff then .error .malformed
  else if 0xd800 ≤ unit ∧ unit ≤ 0xdbff then do
    let (low, cs) ← lowSurrogate cs
    .ok (Char.ofNat (0x10000 + 0x400 * (unit - 0xd800) + (low - 0xdc00)), cs)
  else .ok (Char.ofNat unit, cs)

/-- The character of an escape, from behind its backslash. A string that is read must have
characters in it; in one that is only skipped any four digits will do, and what they stand for is
left open. -/
def escape (skipping : Bool) : List Char → Except Fault (Char × List Char)
  | [] => .error .truncated
  | 'u' :: cs =>
    if skipping then do
      let (_, cs) ← codeUnit cs
      .ok ('\ufffd', cs)
    else codePoint cs
  | c :: cs =>
    match shortEscape? c with
    | some d => .ok (d, cs)
    | none => .error .malformed

/-- The characters of a string, from behind its opening quote. -/
def stringBody (skipping : Bool) : Nat → List Char → Except Fault (List Char × List Char)
  | 0, _ | _, [] => .error .truncated
  | _, '"' :: cs => .ok ([], cs)
  | bound + 1, '\\' :: cs => do
    let (c, cs) ← escape skipping cs
    let (text, cs) ← stringBody skipping bound cs
    .ok (c :: text, cs)
  | bound + 1, c :: cs =>
    if c.toNat < 0x20 then .error .malformed
    else do
      let (text, cs) ← stringBody skipping bound cs
      .ok (c :: text, cs)

/-- A string that is read, from behind its opening quote. -/
def string (bound : Nat) (cs : List Char) : Except Fault (List Char × List Char) :=
  stringBody false bound cs

/-- What is left after a string that is only skipped, from behind its opening quote. -/
def skipString (bound : Nat) (cs : List Char) : Except Fault (List Char) := do
  let (_, cs) ← stringBody true bound cs
  .ok cs

end Multicycle.Json

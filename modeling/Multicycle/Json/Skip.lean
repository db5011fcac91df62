/-
Skipping a value of any kind and any depth. What is skipped must be well formed, but numbers may be
of any size and strings need not make characters.
-/
import Multicycle.Json.Lexeme

namespace Multicycle.Json

/-- What is left after a number of any size. A number cut short by the end of the text is malformed
here. -/
def skipNumber (cs : List Char) : Except Fault (List Char) :=
  match Number.read cs with
  | .ok (_, cs) => .ok cs
  | .error _ => .error .malformed

def colon (cs : List Char) : Except Fault (List Char) :=
  match skipBlanks cs with
  | [] => .error .truncated
  | ':' :: cs => .ok cs
  | _ => .error .malformed

/-- What is left after a key that nobody reads, and its colon. -/
def skipKey (bound : Nat) (cs : List Char) : Except Fault (List Char) :=
  match skipBlanks cs with
  | [] => .error .truncated
  | '"' :: cs => do colon (← skipString bound cs)
  | _ => .error .malformed

mutual

/-- What is left after a value of any kind. -/
def skipValue : Nat → List Char → Except Fault (List Char)
  | 0, _ => .error .malformed
  | bound + 1, cs =>
    match skipBlanks cs with
    | [] => .error .truncated
    | '[' :: cs =>
      match skipBlanks cs with
      | [] => .error .truncated
      | ']' :: cs => .ok cs
      | cs => do skipElements bound (← skipValue bound cs)
    | '{' :: cs =>
      match skipBlanks cs with
      | [] => .error .truncated
      | '}' :: cs => .ok cs
      | cs => skipMembers bound cs
    | '"' :: cs => skipString bound cs
    | 'n' :: cs => literal ['u', 'l', 'l'] cs
    | 't' :: cs => literal ['r', 'u', 'e'] cs
    | 'f' :: cs => literal ['a', 'l', 's', 'e'] cs
    | c :: cs => if c = '-' ∨ c.isDigit then skipNumber (c :: cs) else .error .malformed

def skipElements : Nat → List Char → Except Fault (List Char)
  | 0, _ => .error .malformed
  | bound + 1, cs =>
    match skipBlanks cs with
    | [] => .error .truncated
    | ']' :: cs => .ok cs
    | ',' :: cs => do skipElements bound (← skipValue bound cs)
    | _ => .error .malformed

def skipMembers : Nat → List Char → Except Fault (List Char)
  | 0, _ => .error .malformed
  | bound + 1, cs => do
    let cs ← skipValue bound (← skipKey bound cs)
    match skipBlanks cs with
    | [] => .error .truncated
    | '}' :: cs => .ok cs
    | ',' :: cs => skipMembers bound cs
    | _ => .error .malformed

end

end Multicycle.Json

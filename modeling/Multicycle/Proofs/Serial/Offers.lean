/-
The transmitter over a whole run: one offer a tick, what the transmitter has become after them and
which bytes it has taken on the way. The register block is that transmitter with the bytes taken
behind it, and its own offer is gone after every tick.
-/
import Multicycle.Serial

namespace Multicycle

namespace Transmitter

/-- The transmitter after one tick for each offer. -/
def run (t : Transmitter) (offers : List (Option Byte)) : Transmitter := offers.foldl tick t

def taken : Transmitter → List (Option Byte) → List Byte
  | _, [] => []
  | t, offer :: offers => (t.accepts offer).toList ++ taken (t.tick offer) offers

theorem run_append (t : Transmitter) (os us : List (Option Byte)) :
    t.run (os ++ us) = (t.run os).run us := List.foldl_append

theorem accepts_none (t : Transmitter) : t.accepts none = none := by
  unfold accepts
  split <;> rfl

theorem tick_none_of_ready {t : Transmitter} (h : t.ready = true) : t.tick none = t := by
  obtain ⟨period, frame⟩ := t
  cases frame with
  | none => rfl
  | some f => cases h

/-- Nothing is taken where nothing is offered. -/
theorem taken_replicate_none (t : Transmitter) (n : Nat) : t.taken (List.replicate n none) = [] := by
  induction n generalizing t with
  | zero => rfl
  | succ n ih =>
    show (t.accepts none).toList ++ (t.tick none).taken (List.replicate n none) = []
    rw [accepts_none, ih]
    rfl

end Transmitter

namespace Serial

theorem tick_eq (d : Serial) :
    d.tick = ⟨d.transmitter.tick d.pending, none,
      d.sent ++ (d.transmitter.accepts d.pending).toList.toArray⟩ := by
  unfold tick
  cases d.transmitter.accepts d.pending with
  | none => simp
  | some b => simp

end Serial

end Multicycle

/-
Outcomes that may fail, with errors of any type: what follows a result goes on from it, and what follows
an error is left out.
-/
namespace Multicycle

variable {ε α β : Type}

@[simp] theorem ok_bind (a : α) (f : α → Except ε β) : (Except.ok a >>= f) = f a := rfl

@[simp] theorem error_bind (e : ε) (f : α → Except ε β) : (Except.error e >>= f) = .error e := rfl

end Multicycle

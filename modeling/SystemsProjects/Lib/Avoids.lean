import SystemsProjects.Lib.Loop

/-!
# Computations that avoid an error

`Avoids e x P` is a postcondition for a computation that may stop: it does not stop
with the error `e`, and what it returns, if it returns, has the property `P`.  Other
errors are allowed.  The rules follow the ways in which computations are put together:
a result, another error, a sequence, and a loop with an invariant.
-/

namespace SystemsProjects
namespace Lib

universe u

variable {ε : Type*} {α β : Type u} {e : ε}

/-- `x` does not stop with `e`, and what it returns has `P`. -/
def Avoids (e : ε) (x : Except ε α) (P : α → Prop) : Prop :=
  x ≠ .error e ∧ ∀ a, x = .ok a → P a

namespace Avoids

variable {x : Except ε α} {P Q : α → Prop}

theorem ok {a : α} (h : P a) : Avoids e (.ok a) P := by
  refine ⟨fun hc => ?_, fun b hb => Except.ok.inj hb ▸ h⟩
  cases hc

theorem error {e' : ε} (h : e' ≠ e) : Avoids e (.error e' : Except ε α) P := by
  refine ⟨fun hc => h (Except.error.inj hc), fun b hb => ?_⟩
  cases hb

theorem mono (hx : Avoids e x P) (hPQ : ∀ a, P a → Q a) : Avoids e x Q :=
  ⟨hx.1, fun a ha => hPQ a (hx.2 a ha)⟩

/-- A sequence. -/
theorem bind {f : α → Except ε β} {R : β → Prop} (hx : Avoids e x P)
    (hf : ∀ a, P a → Avoids e (f a) R) : Avoids e (x >>= f) R := by
  cases x with
  | error e' => exact error fun hc => hx.1 (by rw [hc])
  | ok a => exact hf a (hx.2 a rfl)

/-- A loop whose body keeps an invariant. -/
theorem loop {timeout : ε} {body : α → Except ε (α ⊕ β)} {R : β → Prop} (ht : timeout ≠ e)
    (hbody : ∀ s, P s → Avoids e (body s) (Sum.elim P R)) :
    ∀ {fuel : ℕ} {s : α}, P s → Avoids e (Lib.loop timeout body fuel s) R := by
  intro fuel
  induction fuel with
  | zero => exact fun _ => error ht
  | succ fuel ih =>
    intro s hs
    rw [Lib.loop]
    refine (hbody s hs).bind fun r hr => ?_
    cases r with
    | inl s' => exact ih hr
    | inr b => exact ok hr

end Avoids

end Lib
end SystemsProjects

import SystemsProjects.Lib.Loop

/-!
# Computations with a postcondition and admissible errors

`Yields E Q r` says of a computation `r` that it gives a result in `Q`, or stops with an error
in `E`.  It composes over `bind`, and over a loop whose rounds keep an invariant and decrease a
number that is smaller than the fuel, so that the loop does not run out of it.
-/

namespace SystemsProjects
namespace Lib

universe u v

variable {ε : Type u} {α β σ : Type v} {E : ε → Prop} {Q : α → Prop} {R : β → Prop}

/-- A result in `Q`, or an error in `E`. -/
def Yields (E : ε → Prop) (Q : α → Prop) : Except ε α → Prop
  | .ok a => Q a
  | .error e => E e

namespace Yields

@[simp] theorem ok_iff {a : α} : Yields E Q (.ok a : Except ε α) ↔ Q a := Iff.rfl

@[simp] theorem error_iff {e : ε} : Yields E Q (.error e : Except ε α) ↔ E e := Iff.rfl

theorem bind {x : Except ε α} {f : α → Except ε β} (hx : Yields E Q x)
    (hf : ∀ a, Q a → Yields E R (f a)) : Yields E R (x >>= f) := by
  cases x with
  | error e => exact hx
  | ok a => exact hf a hx

theorem mono {x : Except ε α} {Q' : α → Prop} (hx : Yields E Q x) (h : ∀ a, Q a → Q' a) :
    Yields E Q' x := by
  cases x with
  | error e => exact hx
  | ok a => exact h a hx

/-- **The rule for loops**: an invariant and a measure. -/
theorem loop {timeout : ε} {body : σ → Except ε (σ ⊕ β)} {I : σ → Prop} (μ : σ → ℕ)
    (hbody : ∀ s, I s → Yields E (fun r => match r with
      | .inl s' => I s' ∧ μ s' < μ s
      | .inr b => R b) (body s)) :
    ∀ {fuel : ℕ} {s : σ}, I s → μ s < fuel → Yields E R (Lib.loop timeout body fuel s) := by
  intro fuel
  induction fuel with
  | zero => exact fun _ h => absurd h (Nat.not_lt_zero _)
  | succ fuel ih =>
    intro s hI hfuel
    rw [Lib.loop]
    refine (hbody s hI).bind fun r hr => ?_
    cases r with
    | inl s' => exact ih hr.1 (by omega)
    | inr b => exact hr

end Yields

end Lib
end SystemsProjects

import SystemsProjects.Lib.Exec
import SystemsProjects.Lib.NextChain

/-!
# Loops that may not end

A C loop is a body that either goes on with a new state or leaves with a result,
and the body may itself stop with an error.  `loop` runs such a body for a
number of rounds and reports `timeout` when they are used up.

`loop_spec` is the rule for total correctness.  Its variant is a list, the part of
the data that the loop has not yet seen: the invariant `I` relates the rest of
the list to the state, each round drops the first element or leaves, and with
nothing left the loop leaves.  For a loop over a null-terminated chain the list
is the rest of the chain, and `Visits.length_lt` bounds it by the number of
addresses there are.  `loop_preserves` is the rule for loops of which only the
result matters.
-/

namespace SystemsProjects
namespace Lib

universe u

variable {ε α : Type*} {σ β : Type u}

/-- Run `body` until it leaves with a result. -/
def loop (timeout : ε) (body : σ → Except ε (σ ⊕ β)) : ℕ → σ → Except ε β
  | 0, _ => Except.error timeout
  | fuel + 1, s => do
      match ← body s with
      | Sum.inl s' => loop timeout body fuel s'
      | Sum.inr b => pure b

theorem loop_of_continue {timeout : ε} {body : σ → Except ε (σ ⊕ β)} {fuel : ℕ} {s s' : σ}
    (h : body s = .ok (.inl s')) :
    loop timeout body (fuel + 1) s = loop timeout body fuel s' := by
  rw [loop, h, ok_bind]

theorem loop_of_leave {timeout : ε} {body : σ → Except ε (σ ⊕ β)} {fuel : ℕ} {s : σ} {b : β}
    (h : body s = .ok (.inr b)) : loop timeout body (fuel + 1) s = .ok b := by
  rw [loop, h, ok_bind]
  rfl

theorem loop_of_error {timeout e : ε} {body : σ → Except ε (σ ⊕ β)} {fuel : ℕ} {s : σ}
    (h : body s = .error e) : loop timeout body (fuel + 1) s = .error e := by
  rw [loop, h, error_bind]

/-- **Total correctness of a loop**, with the rest of a list as the variant. -/
theorem loop_spec {timeout : ε} {body : σ → Except ε (σ ⊕ β)} {I : List α → σ → Prop}
    {Q : β → Prop}
    (hnil : ∀ s, I [] s → ∃ b, body s = .ok (.inr b) ∧ Q b)
    (hcons : ∀ a l s, I (a :: l) s →
      (∃ s', body s = .ok (.inl s') ∧ I l s') ∨ (∃ b, body s = .ok (.inr b) ∧ Q b)) :
    ∀ {l : List α} {s : σ} {fuel : ℕ}, I l s → l.length < fuel →
      ∃ b, loop timeout body fuel s = .ok b ∧ Q b := by
  intro l
  induction l with
  | nil =>
    intro s fuel hI hfuel
    obtain ⟨fuel, rfl⟩ := Nat.exists_eq_succ_of_ne_zero (Nat.ne_of_gt hfuel)
    obtain ⟨b, hb, hQ⟩ := hnil s hI
    exact ⟨b, loop_of_leave hb, hQ⟩
  | cons a l ih =>
    intro s fuel hI hfuel
    obtain ⟨fuel, rfl⟩ := Nat.exists_eq_succ_of_ne_zero (Nat.ne_of_gt (Nat.zero_lt_of_lt hfuel))
    rcases hcons a l s hI with ⟨s', hs', hI'⟩ | ⟨b, hb, hQ⟩
    · obtain ⟨b, hb, hQ⟩ := ih hI' (Nat.lt_of_succ_lt_succ hfuel)
      exact ⟨b, (loop_of_continue hs').trans hb, hQ⟩
    · exact ⟨b, loop_of_leave hb, hQ⟩

/-- **Partial correctness of a loop**: an invariant holds if and when it leaves. -/
theorem loop_preserves {timeout : ε} {body : σ → Except ε (σ ⊕ β)} {I : σ → Prop}
    {Q : β → Prop} (hcontinue : ∀ s s', I s → body s = .ok (.inl s') → I s')
    (hleave : ∀ s b, I s → body s = .ok (.inr b) → Q b) :
    ∀ {fuel : ℕ} {s : σ} {b : β}, I s → loop timeout body fuel s = .ok b → Q b := by
  intro fuel
  induction fuel with
  | zero =>
    intro s b _ h
    cases h
  | succ fuel ih =>
    intro s b hI h
    rw [loop, bind_eq_ok] at h
    obtain ⟨r, hr, h⟩ := h
    cases r with
    | inl s' => exact ih (hcontinue s s' hI hr) h
    | inr b' =>
      have hb : b' = b := Except.ok.inj h
      exact hb ▸ hleave s b' hI hr

/-- A chain of addresses below a bound is shorter than the bound. -/
theorem Visits.length_lt {next : ℕ → ℕ} {p bound : ℕ} {l : List ℕ}
    (h : Visits 0 next p l) (hbound : ∀ a ∈ l, a < bound) (hpos : 0 < bound) :
    l.length < bound := by
  have hnodup : (0 :: l).Nodup :=
    List.nodup_cons.mpr ⟨fun h0 => h.ne_null h0 rfl, h.nodup⟩
  have hsub : (0 :: l).toFinset ⊆ Finset.range bound := by
    intro a ha
    rw [List.mem_toFinset, List.mem_cons] at ha
    rw [Finset.mem_range]
    rcases ha with rfl | ha
    · exact hpos
    · exact hbound a ha
  have hcard := Finset.card_le_card hsub
  rw [List.toFinset_card_of_nodup hnodup, Finset.card_range, List.length_cons] at hcard
  exact hcard

end Lib
end SystemsProjects

import SystemsProjects.Lib.Team

/-!
# Threads with cells of their own

A thread that works on cells which no other thread touches does there what it would do alone.
`Alone S a final n p m` says what that is: from the memory `m` the program `p` comes to its result
`a` after `n` accesses, all of them to cells of `S`, and leaves `final` in these cells.  What the
other cells hold does not matter (`Alone.congr`).

So in a team whose threads have disjoint sets of cells, a step of one thread brings it closer to
its end and changes nothing for the others (`Separate.step`).  In whatever order the threads run,
each run comes to an end, with the cells of every thread (`Separate.ends`) and its result
(`Separate.results`) as they are when it runs alone.
-/

namespace SystemsProjects
namespace Lib

open Relation

variable {ε ι ν α τ : Type} [DecidableEq ι] {S : Set ι} {a : α} {final m : ι → ν} {n : ℕ}
  {p : Prog ε ι ν α}

/-! ## One thread -/

/-- **The program alone**, with its `n` accesses to the cells of `S`. -/
inductive Alone (S : Set ι) (a : α) (final : ι → ν) :
    ℕ → Prog ε ι ν α → (ι → ν) → Prop where
  | ret {m : ι → ν} (h : Set.EqOn m final S) : Alone S a final 0 (.ret a) m
  | load {n : ℕ} {x : ι} {k : ν → Prog ε ι ν α} {m : ι → ν} (hx : x ∈ S)
      (h : Alone S a final n (k (m x)) m) : Alone S a final (n + 1) (.load x k) m
  | store {n : ℕ} {x : ι} {v : ν} {p : Prog ε ι ν α} {m : ι → ν} (hx : x ∈ S)
      (h : Alone S a final n p (Function.update m x v)) : Alone S a final (n + 1) (.store x v p) m

namespace Alone

/-- Only the own cells matter. -/
theorem congr (h : Alone S a final n p m) :
    ∀ {m' : ι → ν}, Set.EqOn m' m S → Alone S a final n p m' := by
  induction h with
  | ret h => exact fun hm => Alone.ret (hm.trans h)
  | load hx _ ih => exact fun hm => Alone.load hx (by rw [hm hx]; exact ih hm)
  | @store n x v p m hx _ ih =>
    intro m' hm
    refine Alone.store hx (ih fun y hy => ?_)
    rcases eq_or_ne y x with rfl | hne
    · rw [Function.update_self, Function.update_self]
    · rw [Function.update_of_ne hne, Function.update_of_ne hne, hm hy]

/-- The cells of others hold anything at last. -/
theorem of_eqOn (h : Alone S a final n p m) {final' : ι → ν} (heq : Set.EqOn final final' S) :
    Alone S a final' n p m := by
  induction h with
  | ret h => exact Alone.ret (h.trans heq)
  | load hx _ ih => exact Alone.load hx ih
  | store hx _ ih => exact Alone.store hx ih

/-- **An access** brings the program closer to its end, and changes its own cells only. -/
theorem step (h : Alone S a final n p m) {p' : Prog ε ι ν α} {m' : ι → ν}
    (hstep : p.step m = some (p', m')) :
    ∃ n' < n, Alone S a final n' p' m' ∧ ∀ x ∉ S, m' x = m x := by
  cases h with
  | ret h => cases hstep
  | load hx h =>
    cases hstep
    exact ⟨_, Nat.lt_succ_self _, h, fun _ _ => rfl⟩
  | store hx h =>
    cases hstep
    exact ⟨_, Nat.lt_succ_self _, h,
      fun y hy => Function.update_of_ne (ne_of_mem_of_not_mem hx hy).symm _ _⟩

theorem not_fail (h : Alone S a final n p m) (e : ε) : p ≠ .fail e := by
  rintro rfl
  cases h

theorem of_ret {b : α} (h : Alone S a final n (.ret b : Prog ε ι ν α) m) :
    b = a ∧ Set.EqOn m final S := by
  cases h with
  | ret h => exact ⟨rfl, h⟩

end Alone

/-! ## A team -/

section Team

variable [DecidableEq τ] [Fintype τ] {S : τ → Set ι} {a : τ → α} {final : τ → ι → ν}
  {c c' : Team ε ι ν α τ}

/-- Each thread does what it does alone.  There are `n` accesses left. -/
def Separate (S : τ → Set ι) (a : τ → α) (final : τ → ι → ν) (n : ℕ)
    (c : Team ε ι ν α τ) : Prop :=
  ∃ k : τ → ℕ, ∑ t, k t = n ∧ ∀ t, Alone (S t) (a t) (final t) (k t) (c.progs t) c.mem

namespace Separate

omit [DecidableEq τ] in
/-- When every thread has its result, it is the one that it has alone, and so are its cells. -/
theorem of_finished (h : Separate S a final n c) (hfinished : c.Finished) (t : τ) :
    c.progs t = .ret (a t) ∧ Set.EqOn c.mem (final t) (S t) := by
  obtain ⟨k, -, hk⟩ := h
  obtain ⟨b, hb⟩ := hfinished t
  have halone := hk t
  rw [hb] at halone
  obtain ⟨rfl, hmem⟩ := halone.of_ret
  exact ⟨hb, hmem⟩

variable (hS : Pairwise fun t u => Disjoint (S t) (S u))

include hS

/-- **A step of the team.** -/
theorem step (h : Separate S a final n c) (hstep : c.Step c') :
    ∃ n' < n, Separate S a final n' c' := by
  obtain ⟨k, rfl, hk⟩ := h
  obtain ⟨t, p, m, hp, rfl⟩ := hstep
  obtain ⟨k', hlt, halone, hframe⟩ := (hk t).step hp
  refine ⟨∑ u, Function.update k t k' u, sum_lt_sum_of_one t ?_ fun u hu => ?_,
    Function.update k t k', rfl, fun u => ?_⟩
  · rw [Function.update_self]
    exact hlt
  · exact Function.update_of_ne hu _ _
  · rcases eq_or_ne u t with rfl | hu
    · dsimp only
      rw [Function.update_self, Function.update_self]
      exact halone
    · dsimp only
      rw [Function.update_of_ne hu, Function.update_of_ne hu]
      exact (hk u).congr fun x hx => hframe x (Set.disjoint_left.mp (hS hu) hx)

theorem run (h : Separate S a final n c) (hrun : ReflTransGen Team.Step c c') :
    ∃ n', Separate S a final n' c' := by
  induction hrun with
  | refl => exact ⟨n, h⟩
  | tail _ hstep ih =>
    obtain ⟨k, hk⟩ := ih
    obtain ⟨k', -, hk'⟩ := hk.step hS hstep
    exact ⟨k', hk'⟩

/-- **Every run ends**, with the cells of each thread as they are when it runs alone. -/
theorem ends (h : Separate S a final n c) :
    Ends (fun m => ∀ t, Set.EqOn m (final t) (S t)) c := by
  refine Ends.of_descent (I := Separate S a final) ?_ ?_ ?_ h
  · rintro n c ⟨k, -, hk⟩ t e
    exact (hk t).not_fail e
  · exact fun n c hc hfinished t => (hc.of_finished hfinished t).2
  · exact fun n c c' hc hstep => hc.step hS hstep

/-- The results of a run. -/
theorem results (h : Separate S a final n c) (hrun : ReflTransGen Team.Step c c')
    (hfinished : c'.Finished) (t : τ) : c'.progs t = .ret (a t) := by
  obtain ⟨k, hk⟩ := h.run hS hrun
  exact (hk.of_finished hfinished t).1

end Separate

end Team

end Lib
end SystemsProjects

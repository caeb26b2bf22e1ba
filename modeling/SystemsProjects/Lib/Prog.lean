import SystemsProjects.Lib.Exec

/-!
# Programs over a memory of cells

A `Prog` is the tree of the loads and stores that a piece of code makes, each one of them a
single access.  `run` executes it alone; a team of threads executes the accesses of several of
them in any order.

Much code touches its memory by exchanges only: it loads what it likes, and stores the contents
of two cells crosswise.  `Exchanging s Q` says so of a program, with the cells that may be
exchanged and the results it may have.  Run alone, such a program ends, and it permutes the cells
of `s` (`Exchanging.run`).
-/

namespace SystemsProjects
namespace Lib

/-- A program: a result, a fault, or an access and what comes then. -/
inductive Prog (ε ι ν α : Type) where
  | ret (a : α)
  | fail (e : ε)
  | load (x : ι) (k : ν → Prog ε ι ν α)
  | store (x : ι) (v : ν) (p : Prog ε ι ν α)

variable {ε ι ν α β : Type}

namespace Prog

/-- One program after the other. -/
def andThen : Prog ε ι ν α → (α → Prog ε ι ν β) → Prog ε ι ν β
  | ret a, f => f a
  | fail e, _ => fail e
  | load x k, f => load x fun v => (k v).andThen f
  | store x v p, f => store x v (p.andThen f)

instance : Monad (Prog ε ι ν) where
  pure := ret
  bind := andThen

variable [DecidableEq ι]

/-- The program alone: its result and the memory behind it. -/
def run : Prog ε ι ν α → (ι → ν) → Except ε (α × (ι → ν))
  | ret a, m => .ok (a, m)
  | fail e, _ => .error e
  | load x k, m => (k (m x)).run m
  | store x v p, m => p.run (Function.update m x v)

theorem run_bind (p : Prog ε ι ν α) (f : α → Prog ε ι ν β) :
    ∀ m, (p >>= f).run m = p.run m >>= fun r => (f r.1).run r.2 := by
  induction p with
  | ret a => exact fun _ => rfl
  | fail e => exact fun _ => rfl
  | load x k ih => exact fun m => ih (m x) m
  | store x v p ih => exact fun m => ih (Function.update m x v)

theorem run_bind_of_eq {p : Prog ε ι ν α} {m m' : ι → ν} {a : α} (h : p.run m = .ok (a, m'))
    (f : α → Prog ε ι ν β) : (p >>= f).run m = (f a).run m' := by
  rw [run_bind, h, ok_bind]

end Prog

/-! ## Exchanges -/

/-- Two cells exchanged: the memory behind it. -/
def exchanged [DecidableEq ι] (m : ι → ν) (x y : ι) : ι → ν :=
  Function.update (Function.update m x (m y)) y (m x)

/-- A program that loads, and exchanges cells of `s`, and ends with a result in `Q`. -/
inductive Exchanging (s : List ι) (Q : α → Prop) : Prog ε ι ν α → Prop where
  | ret {a : α} (h : Q a) : Exchanging s Q (.ret a)
  | load (x : ι) {k : ν → Prog ε ι ν α} (h : ∀ v, Exchanging s Q (k v)) :
      Exchanging s Q (.load x k)
  | exchange {x y : ι} {p : Prog ε ι ν α} (hx : x ∈ s) (hy : y ∈ s) (h : Exchanging s Q p) :
      Exchanging s Q (.load x fun a => .load y fun b => .store x b (.store y a p))

variable {s : List ι} {Q : α → Prop} {R : β → Prop}

theorem Exchanging.bind {p : Prog ε ι ν α} {f : α → Prog ε ι ν β} (h : Exchanging s Q p)
    (hf : ∀ a, Q a → Exchanging s R (f a)) : Exchanging s R (p >>= f) := by
  induction h with
  | ret h => exact hf _ h
  | load x _ ih => exact Exchanging.load x ih
  | exchange hx hy _ ih => exact Exchanging.exchange hx hy ih

/-- More cells, more results. -/
theorem Exchanging.mono {p : Prog ε ι ν α} {s' : List ι} {Q' : α → Prop}
    (h : Exchanging s Q p) (hs : ∀ x ∈ s, x ∈ s') (hQ : ∀ a, Q a → Q' a) :
    Exchanging s' Q' p := by
  induction h with
  | ret h => exact Exchanging.ret (hQ _ h)
  | load x _ ih => exact Exchanging.load x ih
  | exchange hx hy _ ih => exact Exchanging.exchange (hs _ hx) (hs _ hy) ih

variable [DecidableEq ι]

theorem exchanged_apply (m : ι → ν) (x y z : ι) :
    exchanged m x y z = m (Equiv.swap x y z) := by
  unfold exchanged
  rw [Equiv.swap_apply_def]
  by_cases hy : z = y
  · subst hy
    by_cases hx : z = x
    · rw [if_pos hx, Function.update_self, hx]
    · rw [if_neg hx, if_pos rfl, Function.update_self]
  · rw [Function.update_of_ne hy]
    by_cases hx : z = x
    · rw [if_pos hx, hx, Function.update_self]
    · rw [if_neg hx, if_neg hy, Function.update_of_ne hx]

theorem exchanged_comm (m : ι → ν) (x y : ι) : exchanged m x y = exchanged m y x := by
  funext z
  rw [exchanged_apply, exchanged_apply, Equiv.swap_comm]

/-- An exchange of equal values changes nothing. -/
theorem exchanged_of_eq {m : ι → ν} {x y : ι} (h : m x = m y) : exchanged m x y = m := by
  unfold exchanged
  rw [← h, Function.update_eq_self, h, Function.update_eq_self]

/-- **An exchange permutes** the cells of a list that has both. -/
theorem perm_map_exchanged (hs : s.Nodup) {x y : ι} (hx : x ∈ s) (hy : y ∈ s) (m : ι → ν) :
    (s.map (exchanged m x y)).Perm (s.map m) := by
  have hmem : ∀ z, z ∈ s → Equiv.swap x y z ∈ s := by
    intro z hz
    rw [Equiv.swap_apply_def]
    split
    · exact hy
    · split
      · exact hx
      · exact hz
  have hswap : (s.map (Equiv.swap x y)).Perm s := by
    refine (List.perm_ext_iff_of_nodup (hs.map (Equiv.swap x y).injective) hs).mpr fun z => ?_
    rw [List.mem_map]
    constructor
    · rintro ⟨w, hw, rfl⟩
      exact hmem w hw
    · exact fun hz => ⟨Equiv.swap x y z, hmem z hz, Equiv.swap_apply_self x y z⟩
  have heq : s.map (exchanged m x y) = (s.map (Equiv.swap x y)).map m := by
    rw [List.map_map]
    exact List.map_congr_left fun z _ => exchanged_apply m x y z
  rw [heq]
  exact hswap.map m

theorem exchanged_of_not_mem {x y z : ι} (hx : x ∈ s) (hy : y ∈ s) (hz : z ∉ s) (m : ι → ν) :
    exchanged m x y z = m z := by
  rw [exchanged_apply, Equiv.swap_apply_of_ne_of_ne (ne_of_mem_of_not_mem hx hz).symm
    (ne_of_mem_of_not_mem hy hz).symm]

/-- **An exchanging program alone** ends, permutes its cells, and leaves the others alone. -/
theorem Exchanging.run {p : Prog ε ι ν α} (hs : s.Nodup) (h : Exchanging s Q p) :
    ∀ m : ι → ν, ∃ a m', p.run m = .ok (a, m') ∧ Q a ∧ (s.map m').Perm (s.map m) ∧
      ∀ z ∉ s, m' z = m z := by
  induction h with
  | ret h => exact fun m => ⟨_, m, rfl, h, List.Perm.refl _, fun _ _ => rfl⟩
  | load x _ ih => exact fun m => ih (m x) m
  | @exchange x y p hx hy _ ih =>
    intro m
    obtain ⟨a, m', hrun, hQ, hperm, hframe⟩ := ih (exchanged m x y)
    refine ⟨a, m', hrun, hQ, hperm.trans (perm_map_exchanged hs hx hy m), fun z hz => ?_⟩
    rw [hframe z hz, exchanged_of_not_mem hx hy hz]

end Lib
end SystemsProjects

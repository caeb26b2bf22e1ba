import SystemsProjects.Lib.Team
import SystemsProjects.Parallel.Quicksort

/-!
# The quicksort of `omp6.c`, by a team

The region of `quicksort` is an `omp parallel` without a work-sharing construct: every thread of
the team executes the whole block, so that each branch is sorted by all threads at the same time.
That goes well if the branches are in order already when the region begins, for then all the
exchanges are of equal values (`quiet_quicksortFrom`).  In any other case two threads come to the
same exchange, and a value may get lost.

So the array decides with its first `split` (`parallel_sorts_iff`).
-/

namespace SystemsProjects
namespace Parallel

open Lib

/-- The block of the parallel region, with one thread in the regions inside of it. -/
def branches (n : ℕ) (l r s : ℤ) : Code Unit := do
  quicksort n l (s - 1)
  quicksort n (s + 1) r

/-- `quicksort(l, r)` with `T` threads in its region ends, in every order of their accesses, with
an array that satisfies `P`. -/
def QuicksortEnds (n T : ℕ) (P : (ℤ → ℤ) → Prop) (nums : ℤ → ℤ) (l r : ℤ) : Prop :=
  if l < r then
    ∃ s nums', (split n l r).run nums = .ok (s, nums') ∧
      Ends P (⟨fun _ => branches n l r s, nums'⟩ : Team Fault ℤ ℤ Unit (Fin T))
  else P nums

/-- The elements are in order and are those of the array `old`: none is lost or duplicated. -/
def SortedPermutation (old : ℤ → ℤ) (l r : ℤ) (nums : ℤ → ℤ) : Prop :=
  Sorted nums l r ∧ (window nums l r).Perm (window old l r)

/-- The array is in order after `split`: the elements that are smaller than the last one, and the
queue of the others. -/
def InOrder (xs : List ℤ) (data : ℤ) : Prop :=
  (smaller data xs).Pairwise (fun x y => x ≤ y) ∧
    ((passed data [] xs).rotate 1).Pairwise fun x y => x ≤ y

instance (xs : List ℤ) (data : ℤ) : Decidable (InOrder xs data) :=
  inferInstanceAs (Decidable (_ ∧ _))

variable {n : ℕ} {l r : ℤ}

/-! ## An array in order -/

theorem pairwise_places {R : ℤ → ℤ → Prop} (k : ℕ) : ∀ {a : ℤ},
    (places a k).Pairwise R ↔ ∀ i j, a ≤ i → i < j → j < a + k → R i j := by
  induction k with
  | zero => exact fun {a} => iff_of_true List.Pairwise.nil fun i j hi hij hj => by omega
  | succ k ih =>
    intro a
    rw [places, List.pairwise_cons, ih]
    push_cast
    constructor
    · rintro ⟨hfirst, hrest⟩ i j hi hij hj
      rcases hi.eq_or_lt with rfl | hi
      · exact hfirst j ((mem_places k).mpr ⟨by omega, by omega⟩)
      · exact hrest i j hi hij (by omega)
    · intro h
      refine ⟨fun j hj => ?_, fun i j hi hij hj => h i j (by omega) hij (by omega)⟩
      rw [mem_places] at hj
      exact h a j le_rfl (by omega) (by omega)

theorem sorted_iff_pairwise {m : ℤ → ℤ} {xs : List ℤ} (h : Cells m l xs)
    (hlength : xs.length = (r - l + 1).toNat) :
    Sorted m l r ↔ xs.Pairwise fun x y => x ≤ y := by
  have hxs : (places l xs.length).map m = xs := h
  rw [← hxs, List.pairwise_map, pairwise_places]
  constructor
  · exact fun hsorted i j hi hij hj => hsorted i j hi hij.le (by omega)
  · intro hsorted i j hi hij hj
    rcases hij.eq_or_lt with rfl | hij
    · exact le_rfl
    · exact hsorted i j hi hij (by omega)

/-- **The array after `split`** is in order if and only if both parts of it are. -/
theorem sorted_split_iff {nums nums' : ℤ → ℤ} (hl : 0 ≤ l) (hlr : l ≤ r) (hr : r < n) {s : ℤ}
    (hrun : (split n l r).run nums = .ok (s, nums')) :
    Sorted nums' l r ↔ InOrder (window nums l (r - 1)) (nums r) := by
  obtain ⟨hlength, hcells⟩ := window_concat nums hlr
  obtain ⟨m, hrun', hm⟩ := split_cells hl hr hlength hcells
  obtain ⟨-, rfl⟩ := Prod.mk.inj (Except.ok.inj (hrun.symm.trans hrun'))
  have hsum := length_smaller_add (nums r) (window nums l (r - 1))
  rw [sorted_iff_pairwise (r := r) hm (by
    rw [List.length_append, List.length_cons, List.length_rotate]
    omega), List.pairwise_append, List.pairwise_cons]
  constructor
  · exact fun h => ⟨h.1, h.2.1.2⟩
  · rintro ⟨hsmall, hqueue⟩
    have hle : ∀ x ∈ (passed (nums r) [] (window nums l (r - 1))).rotate 1, nums r ≤ x :=
      fun x hx => le_of_mem_passed (List.mem_rotate.mp hx)
    refine ⟨hsmall, ⟨hle, hqueue⟩, fun x hx y hy => ?_⟩
    have hlt := lt_of_mem_smaller hx
    rcases List.mem_cons.mp hy with rfl | hy
    · exact hlt.le
    · exact hlt.le.trans (hle y hy)

/-! ## Nothing to exchange -/

theorem quiet_exchange {m : ℤ → ℤ} {i j : ℤ} (hi : 0 ≤ i ∧ i < n) (hj : 0 ≤ j ∧ j < n)
    (heq : m i = m j) {α : Type} {Q : α → Prop} {f : Unit → Code α} (h : Quiet m Q (f ())) :
    Quiet m Q (exchange n i j >>= f) := by
  rw [exchange_bind hi hj]
  exact ⟨heq, heq.symm, h⟩

/-- In an array in order `i` follows `j`, until an element is not smaller than the pivot. -/
theorem quiet_splitLoop {m : ℤ → ℤ} (hl : 0 ≤ l) (hr : r < n) (hsorted : Sorted m l r) (k : ℕ) :
    ∀ {i j : ℤ}, l ≤ i → i ≤ j → j + k = r → (i = j ∨ m r ≤ m i) →
      Quiet m (fun p => l ≤ p ∧ p ≤ r ∧ m r ≤ m p) (splitLoop n (m r) k i j) := by
  induction k with
  | zero =>
    intro i j hi hij hj hstop
    refine ⟨hi, by omega, ?_⟩
    rcases hstop with rfl | hstop
    · rw [show i = r by omega]
    · exact hstop
  | succ k ih =>
    intro i j hi hij hj hstop
    push_cast at hj
    rw [splitLoop, getNum_bind (by omega)]
    show Quiet m _ (if m r > m j then _ else _)
    by_cases hlt : m j < m r
    · obtain rfl : i = j := hstop.resolve_right fun hle =>
        absurd (hle.trans (hsorted i j hi hij (by omega))) (Int.not_le.mpr hlt)
      rw [if_pos hlt]
      exact quiet_exchange (by omega) (by omega) rfl
        (ih (by omega) le_rfl (by omega) (Or.inl rfl))
    · rw [if_neg hlt]
      refine ih hi (by omega) (by omega) (Or.inr ?_)
      rcases hstop with rfl | hstop
      · exact Int.not_lt.mp hlt
      · exact hstop

theorem quiet_split {m : ℤ → ℤ} (hl : 0 ≤ l) (hlr : l ≤ r) (hr : r < n)
    (hsorted : Sorted m l r) : Quiet m (fun p => l ≤ p ∧ p ≤ r) (split n l r) := by
  unfold split
  rw [getNum_bind (by omega)]
  refine Quiet.bind _ (quiet_splitLoop hl hr hsorted _ le_rfl le_rfl (by omega) (Or.inl rfl))
    fun p hp => ?_
  obtain ⟨hp, hp', hle⟩ := hp
  exact quiet_exchange (by omega) (by omega) (le_antisymm hle (hsorted p r hp hp' le_rfl))
    ⟨hp, hp'⟩

/-- **An array in order** is left alone, access by access. -/
theorem quiet_quicksortFrom (depth : ℕ) : ∀ {l r : ℤ} {m : ℤ → ℤ}, 0 ≤ l → r < n →
    (r - l + 1).toNat ≤ depth → Sorted m l r →
      Quiet m (fun _ => True) (quicksortFrom n depth l r) := by
  induction depth with
  | zero =>
    intro l r m _ _ hdepth _
    rw [quicksortFrom, if_neg (by omega)]
    trivial
  | succ depth ih =>
    intro l r m hl hr hdepth hsorted
    rw [quicksortFrom]
    split
    · refine (quiet_split hl (by omega) hr hsorted).bind _ fun p hp => ?_
      refine (ih hl (by omega) (by omega) fun i j hi hij hj => ?_).bind _ fun _ _ => ?_
      · exact hsorted i j hi hij (by omega)
      · exact ih (by omega) hr (by omega) fun i j hi hij hj =>
          hsorted i j (by omega) hij hj
    · trivial

theorem quiet_branches {m : ℤ → ℤ} (hl : 0 ≤ l) (hr : r < n) {s : ℤ} (hs : l ≤ s ∧ s ≤ r)
    (hsorted : Sorted m l r) : Quiet m (fun _ => True) (branches n l r s) := by
  unfold branches
  refine Quiet.bind _ (quiet_quicksortFrom _ hl (by omega) le_rfl fun i j hi hij hj => ?_)
    fun _ _ => quiet_quicksortFrom _ (by omega) hr le_rfl fun i j hi hij hj => ?_
  · exact hsorted i j hi hij (by omega)
  · exact hsorted i j (by omega) hij hj

theorem exchanging_branches (hl : 0 ≤ l) (hr : r < n) {s : ℤ} (hs : l ≤ s ∧ s ≤ r) :
    Exchanging (between l r) (fun _ => True) (branches n l r s) := by
  unfold branches
  refine Exchanging.bind ((exchanging_quicksort (n := n) hl (by omega)).mono (fun z hz => ?_)
    fun _ h => h) fun _ _ => (exchanging_quicksort (n := n) (by omega) hr).mono (fun z hz => ?_)
    fun _ h => h
  · rw [mem_between] at hz ⊢
    omega
  · rw [mem_between] at hz ⊢
    omega

/-! ## The region -/

theorem quicksortEnds_iff_inOrder {T : ℕ} {nums : ℤ → ℤ} (hl : 0 ≤ l) (hlr : l ≤ r) (hr : r < n)
    (hT : 2 ≤ T) :
    QuicksortEnds n T (SortedPermutation nums l r) nums l r ↔
      InOrder (window nums l (r - 1)) (nums r) := by
  obtain ⟨s, nums', hrun, hs, hperm, -⟩ :=
    (exchanging_split hl hlr hr).run (nodup_between l r) nums
  rw [← sorted_split_iff hl hlr hr hrun]
  unfold QuicksortEnds
  split
  · have hends := (exchanging_branches hl hr hs).ends_iff (nodup_between l r)
      (P := SortedPermutation nums l r) (m := nums') (t := (⟨0, by omega⟩ : Fin T))
      (u := ⟨1, by omega⟩) (fun h => by simp at h) fun m' hm' => hm'.2.trans hperm.symm
    constructor
    · rintro ⟨s', m, hrun', h⟩
      obtain ⟨rfl, rfl⟩ := Prod.mk.inj (Except.ok.inj (hrun.symm.trans hrun'))
      exact (hends.mp h).2.1
    · exact fun hsorted => ⟨s, nums', hrun,
        hends.mpr ⟨quiet_branches hl hr hs hsorted, hsorted, hperm⟩⟩
  · -- a single element
    have hone : ∀ m : ℤ → ℤ, Sorted m l r := fun m i j hi hij hj => by
      rw [show i = j by omega]
    exact iff_of_true ⟨hone nums, List.Perm.refl _⟩ (hone nums')

/-- **Parallel quicksort**: with two or more threads, every interleaving ends with a sorted
permutation if and only if the first `split` leaves nothing to do. -/
theorem parallel_sorts_iff (n T : ℕ) (nums : ℤ → ℤ) (l r : ℤ) (hl : 0 ≤ l) (hlr : l ≤ r)
    (hr : r < n) (hT : 2 ≤ T) :
    QuicksortEnds n T (SortedPermutation nums l r) nums l r ↔
      InOrder (window nums l (r - 1)) (nums r) :=
  quicksortEnds_iff_inOrder hl hlr hr hT

/-- The elements 0, 2, 1: they are in order after `split`. -/
theorem parallel_sorts_three :
    QuicksortEnds 3 2 (SortedPermutation (fun i => if i = 0 then 0 else 3 - i) 0 2)
      (fun i => if i = 0 then 0 else 3 - i) 0 2 :=
  (parallel_sorts_iff 3 2 (fun i => if i = 0 then 0 else 3 - i) 0 2 (by decide) (by decide)
    (by decide) (by decide)).mpr (by decide)

/-- **The elements 2, 1, 3, and two threads**: not every interleaving sorts them. -/
theorem not_parallel_sorts :
    ¬ QuicksortEnds 3 2 (SortedPermutation (fun i => if i = 2 then 3 else 2 - i) 0 2)
      (fun i => if i = 2 then 3 else 2 - i) 0 2 := fun h =>
  absurd ((quicksortEnds_iff_inOrder (by decide) (by decide) (by decide) (by decide)).mp h)
    (by decide)

end Parallel
end SystemsProjects

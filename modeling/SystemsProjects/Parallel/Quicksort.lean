import SystemsProjects.Lib.Cells

/-!
# The quicksort of `omp6.c`, by one thread

`split` takes the last element of a stretch as the pivot and moves the smaller ones to the
front, and `quicksort` goes on with both sides.  All their stores are exchanges, so that a run
permutes the stretch and leaves the rest of the array alone (`exchanging_quicksort`).

What `split` leaves behind is said in terms of lists.  The smaller elements stay in their order.
The others pass through a queue: each smaller element that is found moves the front of the queue
to its end, and so does the pivot at last (`split_cells`).

An array of `n` elements is a function on the integers, and an access outside of `0 … n - 1` is
a fault.  The indices stay between `-1` and `n`, so that no `int` overflows.
-/

namespace SystemsProjects
namespace Parallel

open Lib

/-! ## The code -/

/-- How a thread can fail. -/
inductive Fault where
  /-- an access outside of the array -/
  | outOfBounds
  /-- a recursion that does not end -/
  | diverges
  deriving DecidableEq, Repr

/-- A piece of code over the array. -/
abbrev Code (α : Type) := Prog Fault ℤ ℤ α

/-- `nums[i]` of an array of `n` elements. -/
def getNum (n : ℕ) (i : ℤ) : Code ℤ :=
  if 0 ≤ i ∧ i < n then .load i .ret else .fail .outOfBounds

/-- `nums[i] = v` -/
def setNum (n : ℕ) (i v : ℤ) : Code Unit :=
  if 0 ≤ i ∧ i < n then .store i v (.ret ()) else .fail .outOfBounds

/-- `temp = nums[i]; nums[i] = nums[j]; nums[j] = temp;` -/
def exchange (n : ℕ) (i j : ℤ) : Code Unit := do
  let temp ← getNum n i
  let num ← getNum n j
  setNum n i num
  setNum n j temp

/-- What is left of the loop of `split`; `i` is its result. -/
def splitLoop (n : ℕ) (data : ℤ) : ℕ → ℤ → ℤ → Code ℤ
  | 0, i, _ => pure i
  | k + 1, i, j => do
      let num ← getNum n j
      if data > num then
        exchange n i j
        splitLoop n data k (i + 1) (j + 1)
      else splitLoop n data k i (j + 1)

/-- The partition around the last element; the result is its place. -/
def split (n : ℕ) (l r : ℤ) : Code ℤ := do
  let data ← getNum n r
  let i ← splitLoop n data (r - l).toNat l l
  exchange n r i
  pure i

/-- `quicksort`, to a depth of the recursion. -/
def quicksortFrom (n : ℕ) : ℕ → ℤ → ℤ → Code Unit
  | 0, l, r => if l < r then .fail .diverges else pure ()
  | depth + 1, l, r =>
      if l < r then do
        let s ← split n l r
        quicksortFrom n depth l (s - 1)
        quicksortFrom n depth (s + 1) r
      else pure ()

/-- `quicksort` with a single thread in its region. -/
def quicksort (n : ℕ) (l r : ℤ) : Code Unit := quicksortFrom n (r - l + 1).toNat l r

variable {n : ℕ} {l r : ℤ}

theorem getNum_eq {i : ℤ} (h : 0 ≤ i ∧ i < n) : getNum n i = .load i .ret := if_pos h

theorem setNum_eq {i : ℤ} (h : 0 ≤ i ∧ i < n) (v : ℤ) :
    setNum n i v = .store i v (.ret ()) := if_pos h

theorem getNum_bind {i : ℤ} (h : 0 ≤ i ∧ i < n) {α : Type} (f : ℤ → Code α) :
    getNum n i >>= f = .load i f := by
  rw [getNum_eq h]
  rfl

theorem exchange_bind {i j : ℤ} (hi : 0 ≤ i ∧ i < n) (hj : 0 ≤ j ∧ j < n) {α : Type}
    (f : Unit → Code α) :
    exchange n i j >>= f =
      .load i fun a => .load j fun b => .store i b (.store j a (f ())) := by
  simp only [exchange, getNum_eq hi, getNum_eq hj, setNum_eq hi, setNum_eq hj]
  rfl

/-! ## All stores are exchanges -/

theorem exchanging_splitLoop (data : ℤ) (hl : 0 ≤ l) (hr : r ≤ n) (k : ℕ) :
    ∀ {i j : ℤ}, l ≤ i → i ≤ j → j + k ≤ r →
      Exchanging (between l (r - 1)) (fun p => l ≤ p ∧ p ≤ r) (splitLoop n data k i j) := by
  induction k with
  | zero =>
    intro i j hi hij hj
    exact Exchanging.ret ⟨hi, by omega⟩
  | succ k ih =>
    intro i j hi hij hj
    push_cast at hj
    rw [splitLoop, getNum_bind (by omega)]
    refine Exchanging.load j fun num => ?_
    split
    · rw [exchange_bind (by omega) (by omega)]
      exact Exchanging.exchange (mem_between.mpr (by omega)) (mem_between.mpr (by omega))
        (ih (by omega) (by omega) (by omega))
    · exact ih hi (by omega) (by omega)

theorem exchanging_split (hl : 0 ≤ l) (hlr : l ≤ r) (hr : r < n) :
    Exchanging (between l r) (fun p => l ≤ p ∧ p ≤ r) (split n l r) := by
  unfold split
  rw [getNum_bind (by omega)]
  refine Exchanging.load r fun data => Exchanging.bind (Q := fun p => l ≤ p ∧ p ≤ r) ?_
    fun i hi => ?_
  · refine (exchanging_splitLoop _ hl hr.le (r - l).toNat le_rfl le_rfl (by omega)).mono
      (fun z hz => ?_) fun _ h => h
    rw [mem_between] at hz ⊢
    omega
  · rw [exchange_bind (by omega) (by omega)]
    exact Exchanging.exchange (mem_between.mpr (by omega)) (mem_between.mpr (by omega))
      (Exchanging.ret hi)

theorem exchanging_quicksortFrom (depth : ℕ) : ∀ {l r : ℤ}, 0 ≤ l → r < n →
    (r - l + 1).toNat ≤ depth →
      Exchanging (between l r) (fun _ => True) (quicksortFrom n depth l r) := by
  induction depth with
  | zero =>
    intro l r _ _ hdepth
    rw [quicksortFrom, if_neg (by omega)]
    exact Exchanging.ret trivial
  | succ depth ih =>
    intro l r hl hr hdepth
    rw [quicksortFrom]
    split
    · refine (exchanging_split hl (by omega) hr).bind fun s hs => ?_
      refine Exchanging.bind ((ih hl (by omega) (by omega)).mono (fun z hz => ?_) fun _ h => h)
        fun _ _ => (ih (by omega) hr (by omega)).mono (fun z hz => ?_) fun _ h => h
      · rw [mem_between] at hz ⊢
        omega
      · rw [mem_between] at hz ⊢
        omega
    · exact Exchanging.ret trivial

/-- **`quicksort` exchanges** elements between `l` and `r`, and does nothing else. -/
theorem exchanging_quicksort (hl : 0 ≤ l) (hr : r < n) :
    Exchanging (between l r) (fun _ => True) (quicksort n l r) :=
  exchanging_quicksortFrom _ hl hr le_rfl

/-! ## What `split` leaves behind -/

/-- The elements that are not smaller than the pivot, taken through a queue. -/
def passed (data : ℤ) (queue rest : List ℤ) : List ℤ :=
  rest.foldl (fun queue x => if x < data then queue.rotate 1 else queue ++ [x]) queue

/-- The elements that are smaller than the pivot. -/
def smaller (data : ℤ) (xs : List ℤ) : List ℤ := xs.filter fun x => x < data

theorem passed_perm (data : ℤ) (rest : List ℤ) : ∀ queue : List ℤ,
    (passed data queue rest).Perm (queue ++ rest.filter fun x => ¬ x < data) := by
  induction rest with
  | nil => exact fun queue => by rw [List.filter_nil, List.append_nil]; exact List.Perm.refl _
  | cons x rest ih =>
    intro queue
    by_cases hx : x < data
    · rw [List.filter_cons_of_neg (by simpa using hx)]
      have hnext : passed data queue (x :: rest) = passed data (queue.rotate 1) rest := by
        rw [passed, List.foldl_cons, if_pos hx]
        rfl
      rw [hnext]
      exact (ih _).trans ((List.rotate_perm queue 1).append_right _)
    · rw [List.filter_cons_of_pos (by simpa using hx)]
      have hnext : passed data queue (x :: rest) = passed data (queue ++ [x]) rest := by
        rw [passed, List.foldl_cons, if_neg hx]
        rfl
      rw [hnext]
      refine (ih _).trans ?_
      rw [List.append_assoc]
      exact List.Perm.refl _

theorem le_of_mem_passed {data x : ℤ} {xs : List ℤ} (h : x ∈ passed data [] xs) : data ≤ x := by
  have hmem := (passed_perm data xs []).mem_iff.mp h
  rw [List.nil_append, List.mem_filter] at hmem
  exact Int.not_lt.mp (of_decide_eq_true hmem.2)

theorem lt_of_mem_smaller {data x : ℤ} {xs : List ℤ} (h : x ∈ smaller data xs) : x < data :=
  of_decide_eq_true (List.mem_filter.mp h).2

theorem length_smaller_add (data : ℤ) (xs : List ℤ) :
    (smaller data xs).length + (passed data [] xs).length = xs.length := by
  rw [(passed_perm data xs []).length_eq, List.nil_append, smaller]
  simp only [decide_not]
  exact (List.length_eq_length_filter_add _).symm

/-- **The loop of `split`**, on the smaller elements so far, the queue, and the rest. -/
theorem splitLoop_cells (data : ℤ) {a : ℤ} (ha : 0 ≤ a) (rest : List ℤ) :
    ∀ (small queue : List ℤ) {m : ℤ → ℤ} {i j : ℤ}, Cells m a (small ++ queue ++ rest) →
      i = a + small.length → j = i + queue.length → j + rest.length ≤ n →
        ∃ m', (splitLoop n data rest.length i j).run m =
            .ok (a + (small ++ smaller data rest).length, m') ∧
          Cells m' a (small ++ smaller data rest ++ passed data queue rest) := by
  induction rest with
  | nil =>
    intro small queue m i j hcells hi _ _
    rw [smaller, List.filter_nil, List.append_nil, ← hi]
    rw [List.append_nil] at hcells
    exact ⟨m, rfl, hcells⟩
  | cons x rest ih =>
    intro small queue m i j hcells hi hj hn
    rw [List.length_cons] at hn
    push_cast at hn
    have hx : m j = x := by
      rw [List.append_assoc, cells_append, cells_append, cells_cons, ← hi, ← hj] at hcells
      exact hcells.2.2.1
    rw [List.length_cons, splitLoop, getNum_bind (by omega)]
    by_cases hlt : x < data
    · -- the front of the queue changes places with `x`
      have hstep : Cells (exchanged m i j) a (small ++ [x] ++ queue.rotate 1 ++ rest) := by
        cases queue with
        | nil =>
          have hij : i = j := by
            rw [hj, List.length_nil]
            omega
          rw [exchanged_of_eq (by rw [hij]), List.rotate_nil, List.append_nil, List.append_assoc]
          rw [List.append_nil] at hcells
          exact hcells
        | cons q queue =>
          have hfront := cells_exchanged (i := i) (j := j) small queue rest
            (x := q) (y := x) hcells hi (by rw [hj, List.length_cons]; omega)
          rw [List.rotate_cons_succ, List.rotate_zero]
          simpa using hfront
      have hsmall : i + 1 = a + ((small ++ [x]).length : ℕ) := by
        rw [hi, List.length_append, List.length_singleton]
        push_cast
        ring
      obtain ⟨m', hrun, hcells'⟩ := ih _ _ hstep hsmall
        (j := j + 1) (by rw [hj, List.length_rotate]; ring) (by omega)
      have hrest : smaller data (x :: rest) = x :: smaller data rest :=
        List.filter_cons_of_pos (by simpa using hlt)
      refine ⟨m', ?_, ?_⟩
      · rw [Prog.run, hx, if_pos hlt, exchange_bind (by omega) (by omega), hrest]
        rw [List.append_assoc] at hrun
        exact hrun
      · rw [hrest, passed, List.foldl_cons, if_pos hlt]
        rw [List.append_assoc small] at hcells'
        exact hcells'
    · obtain ⟨m', hrun, hcells'⟩ := ih small (queue ++ [x]) (m := m) (i := i) (j := j + 1)
        (by simpa using hcells) hi
        (by rw [hj, List.length_append, List.length_singleton]; push_cast; ring) (by omega)
      have hrest : smaller data (x :: rest) = smaller data rest :=
        List.filter_cons_of_neg (by simpa using hlt)
      refine ⟨m', ?_, ?_⟩
      · rw [Prog.run, hx, if_neg hlt, hrest]
        exact hrun
      · rw [hrest, passed, List.foldl_cons, if_neg hlt]
        exact hcells'

/-- **`split`**: the smaller elements, the pivot, and the queue. -/
theorem split_cells {data : ℤ} {xs : List ℤ} {m : ℤ → ℤ} (hl : 0 ≤ l) (hr : r < n)
    (hlength : l + xs.length = r) (hcells : Cells m l (xs ++ [data])) :
    ∃ m', (split n l r).run m = .ok (l + (smaller data xs).length, m') ∧
      Cells m' l (smaller data xs ++ data :: (passed data [] xs).rotate 1) := by
  rw [cells_append, cells_cons, hlength] at hcells
  obtain ⟨hxs, hdata, -⟩ := hcells
  have hcount : (r - l).toNat = xs.length := by omega
  have hsum := length_smaller_add data xs
  obtain ⟨m₁, hrun, hcells₁⟩ := splitLoop_cells (n := n) data hl xs [] []
    (m := m) (i := l) (j := l) (by simpa using hxs) (by simp) (by simp) (by omega)
  rw [List.nil_append] at hrun hcells₁
  -- the loop has left the pivot in its place
  have hpivot : m₁ r = data := by
    obtain ⟨p, m₂, hrun₂, -, -, hframe⟩ := (exchanging_splitLoop (n := n) data hl hr.le
      xs.length (i := l) (j := l) le_rfl le_rfl (by omega)).run (nodup_between _ _) m
    rw [hrun, Except.ok.injEq, Prod.mk.injEq] at hrun₂
    rw [hrun₂.2, hframe r (fun h => by rw [mem_between] at h; omega), hdata]
  have hwhole : Cells m₁ l (smaller data xs ++ passed data [] xs ++ [data]) := by
    rw [cells_append, List.length_append, hsum, hlength, cells_cons]
    exact ⟨hcells₁, hpivot, cells_nil _ _⟩
  refine ⟨exchanged m₁ r (l + (smaller data xs).length), ?_, ?_⟩
  · unfold split
    rw [getNum_bind (by omega), Prog.run, hdata, hcount, Prog.run_bind_of_eq hrun,
      exchange_bind (by omega) (by omega)]
    rfl
  · rw [exchanged_comm]
    cases hqueue : passed data [] xs with
    | nil =>
      have heq : l + ((smaller data xs).length : ℤ) = r := by
        rw [hqueue, List.length_nil] at hsum
        omega
      rw [exchanged_of_eq (by rw [heq]), List.rotate_nil]
      rw [hqueue, List.append_nil] at hwhole
      exact hwhole
    | cons q queue =>
      rw [hqueue] at hwhole hsum
      rw [List.rotate_cons_succ, List.rotate_zero]
      rw [List.length_cons] at hsum
      have hlast := cells_exchanged (i := l + ((smaller data xs).length : ℤ)) (j := r)
        (smaller data xs) queue [] (x := q) (y := data) hwhole rfl (by omega)
      simpa using hlast

/-- Everything left of `p` is smaller, and everything right of it is not. -/
structure SplitAt (m : ℤ → ℤ) (l r p : ℤ) : Prop where
  first_le : l ≤ p
  le_last : p ≤ r
  left : ∀ i, l ≤ i → i < p → m i < m p
  right : ∀ i, p < i → i ≤ r → m p ≤ m i

/-- The list from `l` to `r`, and its last element. -/
theorem window_concat (m : ℤ → ℤ) (hlr : l ≤ r) :
    l + ((window m l (r - 1)).length : ℤ) = r ∧ Cells m l (window m l (r - 1) ++ [m r]) := by
  have hlength : l + ((window m l (r - 1)).length : ℤ) = r := by
    rw [length_window]
    omega
  refine ⟨hlength, ?_⟩
  rw [cells_append, hlength, cells_cons]
  exact ⟨cells_window m l (r - 1), rfl, cells_nil _ _⟩

/-- **`split` finds the place of the pivot.** -/
theorem split_spec (hl : 0 ≤ l) (hlr : l ≤ r) (hr : r < n) (m : ℤ → ℤ) :
    ∃ p m', (split n l r).run m = .ok (p, m') ∧ SplitAt m' l r p := by
  obtain ⟨hlength, hcells⟩ := window_concat m hlr
  obtain ⟨m', hrun, hcells'⟩ := split_cells hl hr hlength hcells
  have hsum := length_smaller_add (m r) (window m l (r - 1))
  rw [cells_append, cells_cons] at hcells'
  obtain ⟨hsmall, hpivot, hqueue⟩ := hcells'
  refine ⟨_, m', hrun, by omega, by omega, fun i hi hp => ?_, fun i hp hi => ?_⟩
  · rw [hpivot]
    exact lt_of_mem_smaller (hsmall.mem hi hp)
  · rw [hpivot]
    have hmem := hqueue.mem (z := i) (by omega) (by rw [List.length_rotate]; omega)
    exact le_of_mem_passed (List.mem_rotate.mp hmem)

/-! ## Sorting -/

/-- The elements from `l` to `r` are in order. -/
def Sorted (m : ℤ → ℤ) (l r : ℤ) : Prop := ∀ i j, l ≤ i → i ≤ j → j ≤ r → m i ≤ m j

/-- A bound of all elements of a stretch is a bound after a permutation. -/
theorem forall_of_perm {m m' : ℤ → ℤ} {P : ℤ → Prop}
    (hperm : ((between l r).map m').Perm ((between l r).map m))
    (h : ∀ i, l ≤ i → i ≤ r → P (m i)) (i : ℤ) (hi : l ≤ i) (hi' : i ≤ r) : P (m' i) := by
  have hmem := hperm.mem_iff.mp (List.mem_map_of_mem (mem_between.mpr ⟨hi, hi'⟩))
  obtain ⟨j, hj, heq⟩ := List.mem_map.mp hmem
  rw [mem_between] at hj
  exact heq ▸ h j hj.1 hj.2

/-- Two sorted sides make a sorted whole. -/
theorem SplitAt.sorted {m : ℤ → ℤ} {p : ℤ} (h : SplitAt m l r p) (hleft : Sorted m l (p - 1))
    (hright : Sorted m (p + 1) r) : Sorted m l r := by
  intro i j hi hij hj
  rcases lt_trichotomy i p with hip | rfl | hip
  · rcases lt_trichotomy j p with hjp | rfl | hjp
    · exact hleft i j hi hij (by omega)
    · exact (h.left i hi hip).le
    · exact (h.left i hi hip).le.trans (h.right j hjp hj)
  · rcases hij.eq_or_lt with rfl | hij
    · exact le_rfl
    · exact h.right j hij hj
  · exact hright i j (by omega) hij hj

/-- Sorting one side keeps the place of the pivot. -/
theorem SplitAt.of_left {m m' : ℤ → ℤ} {p : ℤ} (h : SplitAt m l r p)
    (hperm : ((between l (p - 1)).map m').Perm ((between l (p - 1)).map m))
    (hframe : ∀ z ∉ between l (p - 1), m' z = m z) : SplitAt m' l r p := by
  have hsame : ∀ z, p ≤ z → m' z = m z := fun z hz =>
    hframe z fun hmem => by rw [mem_between] at hmem; omega
  refine ⟨h.first_le, h.le_last, fun i hi hip => ?_, fun i hip hi => ?_⟩
  · rw [hsame p le_rfl]
    exact forall_of_perm (P := fun v => v < m p) hperm
      (fun k hk hk' => h.left k hk (by omega)) i hi (by omega)
  · rw [hsame p le_rfl, hsame i hip.le]
    exact h.right i hip hi

theorem SplitAt.of_right {m m' : ℤ → ℤ} {p : ℤ} (h : SplitAt m l r p)
    (hperm : ((between (p + 1) r).map m').Perm ((between (p + 1) r).map m))
    (hframe : ∀ z ∉ between (p + 1) r, m' z = m z) : SplitAt m' l r p := by
  have hsame : ∀ z, z ≤ p → m' z = m z := fun z hz =>
    hframe z fun hmem => by rw [mem_between] at hmem; omega
  refine ⟨h.first_le, h.le_last, fun i hi hip => ?_, fun i hip hi => ?_⟩
  · rw [hsame p le_rfl, hsame i hip.le]
    exact h.left i hi hip
  · rw [hsame p le_rfl]
    exact forall_of_perm (P := fun v => m p ≤ v) hperm
      (fun k hk hk' => h.right k (by omega) hk') i (by omega) hi

/-- **Any depth that is enough** sorts. -/
theorem quicksortFrom_sorted (depth : ℕ) : ∀ {l r : ℤ} (m : ℤ → ℤ), 0 ≤ l → r < n →
    (r - l + 1).toNat ≤ depth →
      ∃ m', (quicksortFrom n depth l r).run m = .ok ((), m') ∧ Sorted m' l r := by
  induction depth with
  | zero =>
    intro l r m _ _ hdepth
    rw [quicksortFrom, if_neg (by omega)]
    exact ⟨m, rfl, fun i j hi hij hj => by omega⟩
  | succ depth ih =>
    intro l r m hl hr hdepth
    rw [quicksortFrom]
    by_cases hlr : l < r
    · obtain ⟨p, m₁, hsplit, hp⟩ := split_spec hl hlr.le hr m
      have hle := hp.first_le
      have hle' := hp.le_last
      obtain ⟨m₂, hrun₂, hsorted₂⟩ := ih (l := l) (r := p - 1) m₁ hl (by omega) (by omega)
      obtain ⟨m₃, hrun₃, hsorted₃⟩ := ih (l := p + 1) (r := r) m₂ (by omega) hr (by omega)
      obtain ⟨_, m₂', hrun₂', -, hperm₂, hframe₂⟩ := (exchanging_quicksortFrom (n := n) depth
        (l := l) (r := p - 1) hl (by omega) (by omega)).run (nodup_between _ _) m₁
      obtain ⟨_, m₃', hrun₃', -, hperm₃, hframe₃⟩ := (exchanging_quicksortFrom (n := n) depth
        (l := p + 1) (r := r) (by omega) hr (by omega)).run (nodup_between _ _) m₂
      obtain ⟨-, rfl⟩ := Prod.mk.inj (Except.ok.inj (hrun₂.symm.trans hrun₂'))
      obtain ⟨-, rfl⟩ := Prod.mk.inj (Except.ok.inj (hrun₃.symm.trans hrun₃'))
      refine ⟨m₃, ?_, ((hp.of_left hperm₂ hframe₂).of_right hperm₃ hframe₃).sorted ?_ hsorted₃⟩
      · rw [if_pos hlr, Prog.run_bind_of_eq hsplit, Prog.run_bind_of_eq hrun₂]
        exact hrun₃
      · intro i j hi hij hj
        have hsame : ∀ z, z ≤ p - 1 → m₃ z = m₂ z := fun z hz =>
          hframe₃ z fun hmem => by rw [mem_between] at hmem; omega
        rw [hsame i (by omega), hsame j (by omega)]
        exact hsorted₂ i j hi hij hj
    · rw [if_neg hlr]
      refine ⟨m, rfl, fun i j hi hij hj => ?_⟩
      rw [show i = j by omega]

/-- **Sequential quicksort.**  `quicksort` ends with the elements between `l` and `r` in order,
a permutation of the old ones, and all others as they were; `split` returns a place in the
stretch with smaller elements on its left and no smaller ones on its right. -/
theorem quicksort_sorts (n : ℕ) (nums : ℤ → ℤ) (l r : ℤ) (hl : 0 ≤ l) (hr : r < n)
    (_hlr : l ≤ r + 1) :
    (∃ nums', (quicksort n l r).run nums = .ok ((), nums') ∧
      (∀ i j, l ≤ i → i ≤ j → j ≤ r → nums' i ≤ nums' j) ∧
      (window nums' l r).Perm (window nums l r) ∧
      ∀ i, ¬ (l ≤ i ∧ i ≤ r) → nums' i = nums i) ∧
    (l ≤ r → ∃ p nums', (split n l r).run nums = .ok (p, nums') ∧ l ≤ p ∧ p ≤ r ∧
      (∀ i, l ≤ i → i < p → nums' i < nums' p) ∧ ∀ i, p < i → i ≤ r → nums' p ≤ nums' i) := by
  constructor
  · obtain ⟨nums', hrun, hsorted⟩ := quicksortFrom_sorted (n := n) _ nums hl hr le_rfl
    obtain ⟨_, m, hrun', -, hperm, hframe⟩ :=
      (exchanging_quicksort hl hr).run (nodup_between _ _) nums
    obtain ⟨-, rfl⟩ := Prod.mk.inj (Except.ok.inj (hrun.symm.trans hrun'))
    exact ⟨nums', hrun, hsorted, hperm, fun i hi => hframe i fun h => hi (mem_between.mp h)⟩
  · intro hle
    obtain ⟨p, nums', hrun, hp⟩ := split_spec hl hle hr nums
    exact ⟨p, nums', hrun, hp.first_le, hp.le_last, hp.left, hp.right⟩

/-- Three elements, one of them twice. -/
theorem quicksort_sorts_three : ∃ nums' : ℤ → ℤ,
    (quicksort 3 0 2).run (fun i => if i = 1 then 1 else 2) = .ok ((), nums') ∧
      ∀ i j, 0 ≤ i → i ≤ j → j ≤ 2 → nums' i ≤ nums' j := by
  obtain ⟨⟨nums', hrun, hsorted, -⟩, -⟩ := quicksort_sorts 3 (fun i => if i = 1 then 1 else 2) 0 2
    (by decide) (by decide) (by decide)
  exact ⟨nums', hrun, hsorted⟩

end Parallel
end SystemsProjects

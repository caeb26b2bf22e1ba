import SystemsProjects.Lib.OwnCells
import SystemsProjects.Lib.Loop

/-!
# The sum of `omp5.c`

Each thread of the team adds up the summands of the indices `id`, `id + nthrds`,
`id + 2 * nthrds`, … in the first column of its own row of `sum`, and thread 0 also records how
many threads there are.  Behind the region, one thread adds up the rows.

The threads have cells of their own, so that the order of their accesses does not matter
(`Lib.Separate`).  The indices of a thread are those below `num_steps` that it is the remainder
of, and over all threads they are the indices below `num_steps`, each of them once
(`perm_stride`).

The summand is any function on the indices, and the arithmetic of `double` is taken as exact.  An
access outside of `sum` is a fault, and so is an index that does not fit in an `int`.
-/

namespace SystemsProjects
namespace Parallel
namespace StridedSum

open Lib Relation

/-! ## The code -/

/-- How a thread can fail. -/
inductive Fault where
  /-- an access outside of `sum` -/
  | outOfBounds
  /-- an index that is too large for an `int` -/
  | overflow
  /-- a loop that does not end -/
  | diverges
  deriving DecidableEq, Repr

/-- `PAD` -/
def pad : ℤ := 8

/-- `NUM_THREADS` -/
def numThreads : ℤ := 8

/-- The variables that the threads share. -/
inductive Cell where
  | sum (row col : ℤ)
  | nthreads
  deriving DecidableEq, Repr

/-- A piece of code over the shared cells. -/
abbrev Code (α : Type) := Prog Fault Cell ℚ α

/-- `sum[row][col]` -/
def getSum (row col : ℤ) : Code ℚ :=
  if (0 ≤ row ∧ row < numThreads) ∧ 0 ≤ col ∧ col < pad then .load (.sum row col) .ret
  else .fail .outOfBounds

/-- `sum[row][col] = v` -/
def setSum (row col : ℤ) (v : ℚ) : Code Unit :=
  if (0 ≤ row ∧ row < numThreads) ∧ 0 ≤ col ∧ col < pad then .store (.sum row col) v (.ret ())
  else .fail .outOfBounds

/-- `if(id==0) {nthreads=omp_get_num_threads();}` -/
def recordThreads (nthrds id : ℤ) : Code Unit :=
  if id = 0 then .store .nthreads nthrds (.ret ()) else .ret ()

/-- What is left of the loop of a thread.  Its result are the indices that it has visited. -/
def threadLoop (f : ℤ → ℚ) (numSteps nthrds id : ℤ) : ℕ → ℤ → List ℤ → Code (List ℤ)
  | 0, _, _ => .fail .diverges
  | fuel + 1, i, visited =>
      if i < numSteps then do
        let old ← getSum id 0
        setSum id 0 (old + f i)
        if i + nthrds < 2 ^ 31 then
          threadLoop f numSteps nthrds id fuel (i + nthrds) (visited ++ [i])
        else .fail .overflow
      else pure visited

/-- The thread `id` of a team of `nthrds`. -/
def thread (f : ℤ → ℚ) (numSteps nthrds id : ℤ) : Code (List ℤ) := do
  recordThreads nthrds id
  setSum id 0 0
  threadLoop f numSteps nthrds id (numSteps.toNat + 1) id []

/-- The parallel region, with a team of `T` threads.  The array `sum` is not initialised. -/
def region (f : ℤ → ℚ) (numSteps T : ℕ) (m : Cell → ℚ) :
    Team Fault Cell ℚ (List ℤ) (Fin T) :=
  ⟨fun id => thread f numSteps T (id : ℕ), Function.update m .nthreads 0⟩

/-- The body of the last loop, on `i` and `pi`. -/
def piBody (step : ℚ) (m : Cell → ℚ) : ℤ × ℚ → Except Fault (ℤ × ℚ ⊕ ℚ)
  | (i, pi) =>
    if (i : ℚ) < m .nthreads then
      if 0 ≤ i ∧ i < numThreads then pure (.inl (i + 1, pi + m (.sum i 0) * step))
      else .error .outOfBounds
    else pure (.inr pi)

/-- The last loop. -/
def finalPi (step : ℚ) (m : Cell → ℚ) : Except Fault ℚ :=
  loop .diverges (piBody step m) (numThreads.toNat + 1) (0, 0)

/-- The summand of the program. -/
def summand (step : ℚ) (i : ℤ) : ℚ :=
  let x := (i + 1 / 2) * step
  4 / (1 + x * x)

/-- The body of the loop of the serial program, on `i` and `sum`. -/
def serialBody (f : ℤ → ℚ) (numSteps : ℤ) : ℤ × ℚ → Except Fault (ℤ × ℚ ⊕ ℚ)
  | (i, sum) =>
    if i < numSteps then
      if i + 1 < 2 ^ 31 then pure (.inl (i + 1, sum + f i)) else .error .overflow
    else pure (.inr sum)

/-- The serial program. -/
def serialPi (f : ℤ → ℚ) (step : ℚ) (numSteps : ℤ) : Except Fault ℚ := do
  let sum ← loop .diverges (serialBody f numSteps) (numSteps.toNat + 1) (0, 0)
  pure (step * sum)

/-! ## The indices of a thread -/

/-- The indices `i`, `i + T`, `i + 2 * T`, … below `n`. -/
def stride (T n i : ℕ) : List ℤ := (List.range' i ((n - i + (T - 1)) / T) T).map Nat.cast

variable {T n : ℕ}

theorem stride_of_le (hT : 0 < T) {i : ℕ} (hi : n ≤ i) : stride T n i = [] := by
  rw [stride, Nat.sub_eq_zero_of_le hi, Nat.zero_add, Nat.div_eq_of_lt (Nat.sub_one_lt_of_lt hT)]
  rfl

theorem stride_of_lt (hT : 0 < T) {i : ℕ} (hi : i < n) :
    stride T n i = (i : ℤ) :: stride T n (i + T) := by
  have hcount : (n - i + (T - 1)) / T = (n - (i + T) + (T - 1)) / T + 1 := by
    rcases Nat.le_total (i + T) n with hle | hle
    · rw [show n - i + (T - 1) = n - (i + T) + (T - 1) + T by omega, Nat.add_div_right _ hT]
    · rw [Nat.sub_eq_zero_of_le hle, Nat.zero_add, Nat.div_eq_of_lt (Nat.sub_one_lt_of_lt hT),
        show n - i + (T - 1) = n - i - 1 + T by omega, Nat.add_div_right _ hT,
        Nat.div_eq_of_lt (by omega)]
  rw [stride, hcount, List.range'_succ, List.map_cons, stride]

/-- The indices of a thread are those that it is the remainder of. -/
theorem mem_stride_iff {t : ℕ} (ht : t < T) {z : ℤ} :
    z ∈ stride T n t ↔ ∃ j : ℕ, (j < n ∧ j % T = t) ∧ (j : ℤ) = z := by
  have hT : 0 < T := Nat.zero_lt_of_lt ht
  rw [stride, List.mem_map]
  refine exists_congr fun j => and_congr_left' ?_
  rw [List.mem_range']
  constructor
  · rintro ⟨k, hk, rfl⟩
    rw [Nat.lt_iff_add_one_le, Nat.le_div_iff_mul_le hT, Nat.add_mul, Nat.mul_comm k T] at hk
    exact ⟨by omega, by rw [Nat.add_mul_mod_self_left, Nat.mod_eq_of_lt ht]⟩
  · rintro ⟨hj, rfl⟩
    have hsplit := Nat.mod_add_div j T
    refine ⟨j / T, ?_, hsplit.symm⟩
    rw [Nat.lt_iff_add_one_le, Nat.le_div_iff_mul_le hT, Nat.add_mul, Nat.mul_comm _ T]
    omega

theorem nodup_stride (hT : 0 < T) (i : ℕ) : (stride T n i).Nodup :=
  (List.nodup_range' T hT).map Nat.cast_injective

/-- **Each index once**, over all threads. -/
theorem perm_stride (hT : 0 < T) (n : ℕ) :
    ((List.finRange T).flatMap fun id : Fin T => stride T n id).Perm
      ((List.range n).map Nat.cast) := by
  refine (List.perm_ext_iff_of_nodup ?_ (List.nodup_range.map Nat.cast_injective)).mpr fun z => ?_
  · refine List.nodup_flatMap.mpr ⟨fun id _ => nodup_stride hT id, ?_⟩
    refine (List.nodup_finRange T).imp fun {id id'} hne z hz hz' => hne ?_
    obtain ⟨j, ⟨-, hj⟩, rfl⟩ := (mem_stride_iff id.isLt).mp hz
    obtain ⟨j', ⟨-, hj'⟩, heq⟩ := (mem_stride_iff id'.isLt).mp hz'
    rw [Nat.cast_inj.mp heq, hj] at hj'
    exact Fin.ext hj'
  · rw [List.mem_flatMap, List.mem_map]
    constructor
    · rintro ⟨id, -, hz⟩
      obtain ⟨j, ⟨hj, -⟩, rfl⟩ := (mem_stride_iff id.isLt).mp hz
      exact ⟨j, List.mem_range.mpr hj, rfl⟩
    · rintro ⟨j, hj, rfl⟩
      exact ⟨⟨j % T, Nat.mod_lt _ hT⟩, List.mem_finRange _,
        (mem_stride_iff (Nat.mod_lt _ hT)).mpr ⟨j, ⟨List.mem_range.mp hj, rfl⟩, rfl⟩⟩

/-- **The sums of the threads** make up the whole sum. -/
theorem sum_stride (hT : 0 < T) (f : ℤ → ℚ) (n : ℕ) :
    ∑ id ∈ Finset.range T, ((stride T n id).map f).sum = ∑ i ∈ Finset.range n, f i := by
  have hperm := ((perm_stride hT n).map f).sum_eq
  rw [List.map_flatMap, List.flatMap_def, List.sum_flatten, List.map_map, List.map_map,
    ← Fin.sum_univ_def] at hperm
  rw [Finset.sum_range]
  exact hperm

/-! ## The threads -/

/-- The cells of a thread. -/
def cells (id : ℤ) : Set Cell := {x | x = .sum id 0 ∨ id = 0 ∧ x = .nthreads}

theorem disjoint_cells {id id' : ℤ} (hne : id ≠ id') : Disjoint (cells id) (cells id') := by
  refine Set.disjoint_left.mpr fun x hx hx' => ?_
  rcases hx with rfl | ⟨hid, rfl⟩
  · rcases hx' with heq | ⟨-, heq⟩
    · exact hne (Cell.sum.inj heq).1
    · cases heq
  · rcases hx' with heq | ⟨hid', -⟩
    · cases heq
    · exact hne (hid.trans hid'.symm)

section Thread

variable {f : ℤ → ℚ} {id : ℕ}

theorem getSum_bind {row : ℤ} (hrow : 0 ≤ row ∧ row < numThreads) {α : Type} (k : ℚ → Code α) :
    getSum row 0 >>= k = .load (.sum row 0) k := by
  rw [getSum, if_pos ⟨hrow, by decide⟩]
  rfl

theorem setSum_bind {row : ℤ} (hrow : 0 ≤ row ∧ row < numThreads) (v : ℚ) {α : Type}
    (k : Unit → Code α) : setSum row 0 v >>= k = .store (.sum row 0) v (k ()) := by
  rw [setSum, if_pos ⟨hrow, by decide⟩]
  rfl

/-- **The loop of a thread alone**, from any index on. -/
theorem alone_threadLoop (hT : 0 < T) (hmax : n + T < 2 ^ 31)
    (hrow : 0 ≤ (id : ℤ) ∧ (id : ℤ) < numThreads) (fuel : ℕ) :
    ∀ (i : ℕ) (visited : List ℤ) (m : Cell → ℚ), n - i < fuel →
      ∃ k, Alone (cells id) (visited ++ stride T n i)
        (Function.update m (.sum id 0) (m (.sum id 0) + ((stride T n i).map f).sum)) k
        (threadLoop f n T id fuel i visited) m := by
  induction fuel with
  | zero => exact fun _ _ _ h => absurd h (Nat.not_lt_zero _)
  | succ fuel ih =>
    intro i visited m hfuel
    by_cases hi : i < n
    · obtain ⟨k, hk⟩ := ih (i + T) (visited ++ [(i : ℤ)])
        (Function.update m (.sum id 0) (m (.sum id 0) + f i)) (by omega)
      rw [Function.update_idem, Function.update_self, List.append_assoc, List.singleton_append,
        add_assoc, ← List.sum_cons, ← List.map_cons, ← stride_of_lt hT hi] at hk
      refine ⟨k + 2, ?_⟩
      rw [threadLoop, if_pos (by exact_mod_cast hi), getSum_bind hrow]
      refine Alone.load (Or.inl rfl) ?_
      rw [setSum_bind hrow, if_pos (by omega)]
      refine Alone.store (Or.inl rfl) ?_
      exact_mod_cast hk
    · have hnone : stride T n i = [] := stride_of_le hT (not_lt.mp hi)
      refine ⟨0, ?_⟩
      rw [threadLoop, if_neg (by exact_mod_cast hi), hnone, List.append_nil, List.map_nil,
        List.sum_nil, add_zero, Function.update_eq_self]
      exact Alone.ret fun _ _ => rfl

/-- What the shared variables hold when all threads are done. -/
def summed (f : ℤ → ℚ) (n T : ℕ) : Cell → ℚ
  | .sum row _ => ((stride T n row.toNat).map f).sum
  | .nthreads => T

/-- **A thread alone.** -/
theorem alone_thread (hmax : n + T < 2 ^ 31) (hid : id < T) (hT : (T : ℤ) ≤ numThreads)
    (m : Cell → ℚ) :
    ∃ k, Alone (cells id) (stride T n id) (summed f n T) k (thread f n T id) m := by
  have hrow : 0 ≤ (id : ℤ) ∧ (id : ℤ) < numThreads := ⟨by omega, by omega⟩
  have hloop : ∀ m : Cell → ℚ, ((id : ℤ) = 0 → m .nthreads = T) →
      ∃ k, Alone (cells id) (stride T n id) (summed f n T) k
        (setSum id 0 0 >>= fun _ => threadLoop f n T id ((n : ℤ).toNat + 1) id []) m := by
    intro m hm
    obtain ⟨k, hk⟩ := alone_threadLoop (f := f) (Nat.zero_lt_of_lt hid) hmax hrow (n + 1) id []
      (Function.update m (.sum id 0) 0) (by omega)
    rw [setSum_bind hrow]
    refine ⟨k + 1, Alone.store (Or.inl rfl) (hk.of_eqOn fun x hx => ?_)⟩
    rcases hx with rfl | ⟨hzero, rfl⟩
    · rw [Function.update_self, Function.update_self, zero_add, summed, Int.toNat_natCast]
    · rw [Function.update_of_ne Cell.noConfusion, Function.update_of_ne Cell.noConfusion, hm hzero,
        summed]
  by_cases hzero : (id : ℤ) = 0
  · obtain ⟨k, hk⟩ := hloop (Function.update m .nthreads T) fun _ => Function.update_self _ _ _
    refine ⟨k + 1, ?_⟩
    rw [thread, recordThreads, if_pos hzero]
    exact Alone.store (Or.inr ⟨hzero, rfl⟩) hk
  · obtain ⟨k, hk⟩ := hloop m fun h => absurd h hzero
    refine ⟨k, ?_⟩
    rw [thread, recordThreads, if_neg hzero]
    exact hk

end Thread

/-! ## The region -/

/-- In a team of `T`, each thread does what it does alone. -/
theorem separate_region (f : ℤ → ℚ) (hT : (T : ℤ) ≤ numThreads) (hmax : n + T < 2 ^ 31)
    (m : Cell → ℚ) :
    ∃ k, Separate (fun id : Fin T => cells (id : ℕ)) (fun id => stride T n id)
      (fun _ => summed f n T) k (region f n T m) := by
  choose k hk using fun id : Fin T => alone_thread (f := f) hmax id.isLt hT
    (Function.update m .nthreads 0)
  exact ⟨∑ id, k id, k, rfl, hk⟩

theorem pairwise_cells :
    Pairwise fun id id' : Fin T => Disjoint (cells (id : ℕ)) (cells (id' : ℕ)) :=
  fun _ _ hne => disjoint_cells fun heq => hne (Fin.ext (Nat.cast_inj.mp heq))

/-- The last loop, with `r` rows to go. -/
theorem pi_loop (step : ℚ) {m : Cell → ℚ} {g : ℕ → ℚ} (hT : (T : ℤ) ≤ numThreads)
    (hnthreads : m .nthreads = T) (hsum : ∀ t < T, m (.sum (t : ℕ) 0) = g t) (r : ℕ) :
    ∀ {i fuel : ℕ}, i + r = T → r < fuel →
      loop .diverges (piBody step m) fuel (i, (∑ t ∈ Finset.range i, g t) * step) =
        .ok ((∑ t ∈ Finset.range T, g t) * step) := by
  induction r with
  | zero =>
    rintro i (_ | fuel) hi hfuel
    · exact absurd hfuel (Nat.lt_irrefl 0)
    · obtain rfl : i = T := hi
      refine loop_of_leave ?_
      rw [piBody, hnthreads, if_neg (by exact_mod_cast Nat.lt_irrefl i)]
      rfl
  | succ r ih =>
    rintro i (_ | fuel) hi hfuel
    · exact absurd hfuel (Nat.not_lt_zero _)
    · have hlt : i < T := by omega
      have hbody : piBody step m (i, (∑ t ∈ Finset.range i, g t) * step) =
          .ok (.inl (((i + 1 : ℕ) : ℤ), (∑ t ∈ Finset.range (i + 1), g t) * step)) := by
        rw [piBody, hnthreads, if_pos (by exact_mod_cast hlt), if_pos ⟨by omega, by omega⟩,
          hsum i hlt, Finset.sum_range_succ, add_mul]
        rfl
      rw [loop_of_continue hbody]
      exact ih (by omega) (by omega)

/-- When the threads are done, the last loop computes the whole sum. -/
theorem finalPi_eq {m : Cell → ℚ} (f : ℤ → ℚ) (step : ℚ) (hpos : 0 < T)
    (hT : (T : ℤ) ≤ numThreads)
    (hm : ∀ id : Fin T, Set.EqOn m (summed f n T) (cells (id : ℕ))) :
    finalPi step m = .ok ((∑ i ∈ Finset.range n, f i) * step) := by
  have hsum : ∀ t < T, m (.sum (t : ℕ) 0) = ((stride T n t).map f).sum := by
    intro t ht
    rw [hm ⟨t, ht⟩ (Or.inl rfl), summed, Int.toNat_natCast]
  have hnthreads : m .nthreads = T := hm ⟨0, hpos⟩ (Or.inr ⟨rfl, rfl⟩)
  have hfuel : T < numThreads.toNat + 1 := by omega
  rw [finalPi, ← sum_stride hpos]
  have hloop := pi_loop step hT hnthreads hsum T (Nat.zero_add T) hfuel
  rw [Finset.sum_range_zero, zero_mul] at hloop
  exact hloop

/-- Every run of the region ends, and the last loop computes the whole sum. -/
theorem region_ends (f : ℤ → ℚ) (step : ℚ) (hpos : 0 < T) (hT : (T : ℤ) ≤ numThreads)
    (hmax : n + T < 2 ^ 31) (m : Cell → ℚ) :
    Ends (fun m' => finalPi step m' = .ok ((∑ i ∈ Finset.range n, f i) * step))
      (region f n T m) := by
  obtain ⟨k, hseparate⟩ := separate_region f hT hmax m
  exact (hseparate.ends pairwise_cells).mono fun m' hm' => finalPi_eq f step hpos hT hm'

/-- **The sum of `omp5.c`.**  For every number of steps and every team that has its rows, every
summand, and whatever `sum` holds before: in whatever order the threads run, they come to an end
without a fault, the last loop computes the whole sum, and over all threads each index below
`num_steps` has been visited once, and no other one. -/
theorem strided_sum (f : ℤ → ℚ) (step : ℚ) (numSteps T : ℕ) (hpos : 1 ≤ T)
    (hT : (T : ℤ) ≤ numThreads) (hmax : numSteps + T ≤ 2 ^ 31 - 1) (m : Cell → ℚ) :
    Ends (fun m' => finalPi step m' = .ok ((∑ i ∈ Finset.range numSteps, f i) * step))
      (region f numSteps T m) ∧
    ∀ c, ReflTransGen Team.Step (region f numSteps T m) c → c.Finished →
      ∃ visited : Fin T → List ℤ, (∀ id, c.progs id = .ret (visited id)) ∧
        ((List.finRange T).flatMap visited).Perm ((List.range numSteps).map Nat.cast) := by
  have hlt : numSteps + T < 2 ^ 31 := Nat.lt_of_le_sub_one (by decide) hmax
  refine ⟨region_ends f step hpos hT hlt m, fun c hrun hfinished => ?_⟩
  obtain ⟨k, hseparate⟩ := separate_region f hT hlt m
  exact ⟨fun id => stride T numSteps id, hseparate.results pairwise_cells hrun hfinished,
    perm_stride hpos numSteps⟩

/-- Three steps, two threads, and rows that hold sevens before. -/
theorem strided_sum_three :
    Ends (fun m' => finalPi (1 / 3) m' = .ok 1) (region (fun i => i) 3 2 fun _ => 7) ∧
    ∀ c, ReflTransGen Team.Step (region (fun i => i) 3 2 fun _ => 7) c → c.Finished →
      ∃ visited : Fin 2 → List ℤ, (∀ id, c.progs id = .ret (visited id)) ∧
        ((List.finRange 2).flatMap visited).Perm [0, 1, 2] := by
  have hsum : (∑ i ∈ Finset.range 3, ((i : ℤ) : ℚ)) * (1 / 3) = 1 := by
    norm_num [Finset.sum_range_succ]
  have hall := strided_sum (fun i => i) (1 / 3) 3 2 (by decide) (by decide) (by decide) fun _ => 7
  rw [hsum] at hall
  exact hall

/-! ## The serial program -/

theorem serial_loop (f : ℤ → ℚ) (hmax : n < 2 ^ 31) (r : ℕ) :
    ∀ {i : ℕ}, i + r = n →
      loop .diverges (serialBody f n) (r + 1) (i, ∑ j ∈ Finset.range i, f j) =
        .ok (∑ j ∈ Finset.range n, f j) := by
  induction r with
  | zero =>
    intro i hi
    obtain rfl : i = n := hi
    refine loop_of_leave ?_
    rw [serialBody, if_neg (lt_irrefl _)]
    rfl
  | succ r ih =>
    intro i hi
    have hbody : serialBody f n (i, ∑ j ∈ Finset.range i, f j) =
        .ok (.inl (((i + 1 : ℕ) : ℤ), ∑ j ∈ Finset.range (i + 1), f j)) := by
      rw [serialBody, if_pos (by omega), if_pos (by omega), Finset.sum_range_succ]
      rfl
    rw [loop_of_continue hbody]
    exact ih (by omega)

theorem serialPi_eq (f : ℤ → ℚ) (step : ℚ) (hmax : n < 2 ^ 31) :
    serialPi f step n = .ok ((∑ i ∈ Finset.range n, f i) * step) := by
  have hloop := serial_loop f hmax n (Nat.zero_add n)
  rw [Finset.sum_range_zero] at hloop
  rw [serialPi, Int.toNat_natCast, mul_comm]
  exact congrArg (· >>= fun sum => pure (step * sum)) hloop

/-- **The parallel program refines the serial one**, with the summand and the step of both. -/
theorem region_refines_serial (hpos : 0 < T) (hT : (T : ℤ) ≤ numThreads) (hmax : n + T < 2 ^ 31)
    (m : Cell → ℚ) :
    Ends (fun m' => finalPi (1 / n) m' = serialPi (summand (1 / n)) (1 / n) n)
      (region (summand (1 / n)) n T m) := by
  rw [serialPi_eq _ _ (Nat.lt_of_le_of_lt (Nat.le_add_right n T) hmax)]
  exact region_ends _ _ hpos hT hmax m

end StridedSum
end Parallel
end SystemsProjects

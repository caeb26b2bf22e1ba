import SystemsProjects.Xv6.CrashSafety

/-!
# The room in the log

`begin_op` lets a call in only if the log has room for the blocks that it already lists and for
`MAXOPBLOCKS` blocks of each call that is running then.  The reservation is meant to make sure
that `log_write` finds room, since otherwise it stops the kernel with "too big a transaction".

`Room` is the reservation as an invariant: what is listed, and what the running calls have left
of their `MAXOPBLOCKS`, is at most `LOGSIZE`.  It gives what it should as long as a call uses
`log_write` at most `MAXOPBLOCKS` times (`WithinBudget`).  The calls of `log_write` count, and
not the blocks: its check comes before the search for the block, so that a write of a block that
is listed already needs room as well.  But `log_write` has a second check, against the size of
the log area, of which one block is the header, and `begin_op` does not look at that size:
`no_halt_iff` says that no panic of the log is reached exactly if the area has more than
`LOGSIZE` blocks.  The area that `mkfs` lays out has `LOGSIZE` blocks.

The panics are those of `log.c`, and the one of the disk for a block that does not exist.
`bget` has a panic of its own, for a cache of `NBUF` buffers that are all in use; the cache of
`Kernel` has no such bound, and nothing here is about it.
-/

namespace SystemsProjects
namespace Xv6
namespace Log

open Lib

variable {P : Type}

/-! ## The budget of a call -/

/-- How often the calls that are running have used `log_write`, behind one more event. -/
def logWrites [DecidableEq P] (n : P → ℕ) : Event P → P → ℕ
  | .beginOp p => Function.update n p 0
  | .write p _ _ => Function.update n p (n p + 1)
  | _ => n

/-- A write finds that its call has used `log_write` fewer than `MAXOPBLOCKS` times. -/
def MayWrite (n : P → ℕ) : Event P → Prop
  | .write p _ _ => n p < maxOpBlocks
  | _ => True

instance (n : P → ℕ) : (e : Event P) → Decidable (MayWrite n e)
  | .write p _ _ => inferInstanceAs (Decidable (n p < maxOpBlocks))
  | .beginOp _ => .isTrue trivial
  | .read _ _ => .isTrue trivial
  | .endOp _ => .isTrue trivial
  | .tick => .isTrue trivial
  | .settle => .isTrue trivial
  | .crash => .isTrue trivial

/-- **Every call keeps to its budget**: it uses `log_write` at most `MAXOPBLOCKS` times.  `n` is
how often the calls that are running have used it already. -/
def WithinBudget [DecidableEq P] : (P → ℕ) → List (Event P × Unit) → Prop
  | _, [] => True
  | n, e :: tr => MayWrite n e.1 ∧ WithinBudget (logWrites n e.1) tr

instance decidableWithinBudget [DecidableEq P] :
    (n : P → ℕ) → (tr : List (Event P × Unit)) → Decidable (WithinBudget n tr)
  | _, [] => .isTrue trivial
  | n, e :: tr =>
      haveI := decidableWithinBudget (logWrites n e.1) tr
      inferInstanceAs (Decidable (MayWrite n e.1 ∧ WithinBudget (logWrites n e.1) tr))

/-- A write comes while its call has logged fewer than `MAXOPBLOCKS` blocks. -/
def Frugal (s : Kernel P) : Event P → Prop
  | .write p _ _ => (s.written p).card < maxOpBlocks
  | _ => True

/-- Runs of the log in which every write is frugal. -/
def FrugalStep [DecidableEq P] (L : LogArea) :
    Kernel P → Event P → Unit → Kernel P → Prop :=
  Guarded Frugal (Kernel.Step L)

namespace Kernel

/-- What the calls that are running may still write. -/
def reserved (s : Kernel P) : ℕ := ∑ p ∈ s.active, (maxOpBlocks - (s.written p).card)

/-- **The reservation.** -/
structure Room (s : Kernel P) : Prop where
  listed : ∀ p ∈ s.active, ∀ b ∈ s.written p, b ∈ s.lh
  fits : s.lh.length + s.reserved ≤ logSize

variable {L : LogArea} {s s' : Kernel P} {p : P} {b : ℤ} {data : Block}

/-- No call has more reserved than `MAXOPBLOCKS` blocks. -/
theorem reserved_le (s : Kernel P) : s.reserved ≤ s.active.card * maxOpBlocks :=
  Finset.sum_le_card_nsmul _ _ _ fun _ _ => Nat.sub_le _ _

/-- A log without calls has room if it lists nothing. -/
theorem room_of_empty (hactive : s.active = ∅) (hlh : s.lh.length ≤ logSize) : s.Room where
  listed p hp := absurd (hactive ▸ hp) (Finset.notMem_empty p)
  fits := by
    rw [reserved, hactive, Finset.sum_empty]
    exact hlh

variable [DecidableEq P]

theorem Room.beginOp (h : s.Room) (hp : p ∉ s.active) (hcount : s.outstanding = s.active.card)
    (hstep : s.beginOp p = some s') : s'.Room := by
  rw [Kernel.beginOp] at hstep
  split at hstep
  · cases hstep
  split at hstep
  · cases hstep
  rename_i hguard
  rw [← Option.some.inj hstep]
  have hne : ∀ q ∈ s.active, q ≠ p := fun q hq heq => hp (heq ▸ hq)
  refine ⟨fun q hq c hc => ?_, ?_⟩
  · change c ∈ Function.update s.written p ∅ q at hc
    rcases Finset.mem_insert.mp hq with rfl | hq
    · rw [Function.update_self] at hc
      exact absurd hc (Finset.notMem_empty c)
    · rw [Function.update_of_ne (hne q hq)] at hc
      exact h.listed q hq c hc
  · change s.lh.length +
      ∑ q ∈ insert p s.active, (maxOpBlocks - (Function.update s.written p ∅ q).card) ≤ logSize
    have hrest : ∑ q ∈ s.active, (maxOpBlocks - (Function.update s.written p ∅ q).card) =
        s.reserved :=
      Finset.sum_congr rfl fun q hq => by rw [Function.update_of_ne (hne q hq)]
    rw [Finset.sum_insert hp, Function.update_self, hrest, Finset.card_empty, Nat.sub_zero]
    have hle := s.reserved_le
    rw [← hcount] at hle
    rw [not_lt, Nat.add_mul, one_mul] at hguard
    omega

omit [DecidableEq P] in
/-- A call that has not used up its budget finds room in the list. -/
theorem Room.lt_logSize (h : s.Room) (hp : p ∈ s.active)
    (hfrugal : (s.written p).card < maxOpBlocks) : s.lh.length < logSize := by
  have hone : maxOpBlocks - (s.written p).card ≤ s.reserved :=
    Finset.single_le_sum (f := fun q => maxOpBlocks - (s.written q).card)
      (fun _ _ => Nat.zero_le _) hp
  have := h.fits
  omega

/-- One more block: what is listed grows by no more than the reservation shrinks. -/
theorem Room.write (h : s.Room) (hp : p ∈ s.active)
    (hfrugal : (s.written p).card < maxOpBlocks) :
    (if b ∈ s.lh then s.lh else s.lh ++ [b]).length +
      ∑ q ∈ s.active, (maxOpBlocks -
        (Function.update s.written p (insert b (s.written p)) q).card) ≤ logSize := by
  have hsplit := Finset.add_sum_erase s.active (fun q => maxOpBlocks - (s.written q).card) hp
  have hrest : ∑ q ∈ s.active.erase p, (maxOpBlocks -
      (Function.update s.written p (insert b (s.written p)) q).card) =
      ∑ q ∈ s.active.erase p, (maxOpBlocks - (s.written q).card) :=
    Finset.sum_congr rfl fun q hq => by
      rw [Function.update_of_ne (Finset.ne_of_mem_erase hq)]
  rw [← Finset.add_sum_erase _ _ hp, hrest, Function.update_self]
  have hfits := h.fits
  rw [reserved, ← hsplit] at hfits
  split
  · have hcard := Finset.card_le_card (Finset.subset_insert b (s.written p))
    omega
  · rename_i hb
    rw [Finset.card_insert_of_notMem fun hmem => hb (h.listed p hp b hmem),
      List.length_append, List.length_singleton]
    omega

theorem Room.logWrite (h : s.Room) (hp : p ∈ s.active)
    (hfrugal : (s.written p).card < maxOpBlocks) : (s.logWrite L p b data).Room := by
  rw [Kernel.logWrite]
  split
  · exact ⟨h.listed, h.fits⟩
  split
  · exact ⟨h.listed, h.fits⟩
  refine ⟨fun q hq c hc => mem_absorb.mpr ?_, h.write hp hfrugal⟩
  change c ∈ Function.update s.written p (insert b (s.written p)) q at hc
  by_cases heq : q = p
  · subst heq
    rw [Function.update_self, Finset.mem_insert] at hc
    exact hc.imp_right (h.listed q hq c)
  · rw [Function.update_of_ne heq] at hc
    exact Or.inr (h.listed q hq c hc)

theorem Room.endOp (h : s.Room) : (s.endOp L p).Room := by
  have hroom : Kernel.Room { s with
      outstanding := s.outstanding - 1, active := s.active.erase p } := by
    refine ⟨fun q hq => h.listed q (Finset.mem_of_mem_erase hq), ?_⟩
    refine le_trans (Nat.add_le_add_left ?_ _) h.fits
    exact Finset.sum_le_sum_of_subset (Finset.erase_subset p s.active)
  rw [Kernel.endOp]
  split
  · exact ⟨hroom.listed, hroom.fits⟩
  split
  · exact ⟨hroom.listed, hroom.fits⟩
  · exact hroom

omit [DecidableEq P] in
/-- **An access to the disk** changes the cache and what is left to do. -/
theorem eq_of_tick (hstep : s.tick = some s') :
    ∃ task cache, s' = { s with task := task, cache := cache } ∧ ∀ e, task ≠ .halted e := by
  rw [Kernel.tick] at hstep
  split at hstep
  · obtain ⟨r, -, hs'⟩ := Option.map_eq_some_iff.mp hstep
    exact ⟨.commits r.1, r.2, hs'.symm, fun e => by simp⟩
  · obtain ⟨r, -, hs'⟩ := Option.map_eq_some_iff.mp hstep
    exact ⟨.recovers r.1, r.2, hs'.symm, fun e => by simp⟩
  · cases hstep
  · cases hstep

omit [DecidableEq P] in
theorem Room.tick (h : s.Room) (hstep : s.tick = some s') : s'.Room := by
  obtain ⟨task, cache, rfl, -⟩ := eq_of_tick hstep
  exact ⟨h.listed, h.fits⟩

omit [DecidableEq P] in
/-- A log that is done with a commit or a recovery lists nothing. -/
theorem settled_lh {a : Store P} (h : s'.Refines L a) (hactive : s'.active = ∅)
    (htask : s'.task = .idle) : s'.lh = [] := by
  have hm := h.matched
  rw [htask] at hm
  exact hm.2.2.2 hactive

/-! ## No panic -/

/-- The kernel has not stopped. -/
def Running (s : Kernel P) : Prop := ∀ e, s.task ≠ .halted e

omit [DecidableEq P] in
theorem Running.tick (hstep : s.tick = some s') : s'.Running := by
  obtain ⟨task, cache, rfl, htask⟩ := eq_of_tick hstep
  exact htask

omit [DecidableEq P] in
/-- A commit or a recovery ends without a panic. -/
theorem Refines.settle_idle {a : Store P} (h : s.Refines L a) (hstep : s.settle = some s') :
    s'.task = .idle ∧ s'.active = ∅ := by
  have hm := h.matched
  rw [Kernel.settle] at hstep
  split at hstep
  · rename_i lh htask
    rw [htask] at hm
    rw [← Option.some.inj hstep]
    exact ⟨rfl, hm.2.1⟩
  · rename_i lh htask
    rw [htask] at hm
    rw [← Option.some.inj hstep]
    exact ⟨rfl, hm.2.1⟩
  · rename_i e htask
    rw [htask] at hm
    obtain ⟨-, -, hs | ⟨-, hk⟩⟩ := hm
    · exact hs.elim
    · exact hk.elim
  · rename_i e htask
    rw [htask] at hm
    exact hm.2.2.2.elim
  · cases hstep

/-- `log_write` finds room in a log that is larger than `LOGSIZE`. -/
theorem Room.logWrite_running (h : s.Room) (hL : (logSize : ℤ) < L.size)
    (hcount : s.outstanding = s.active.card) (hrunning : s.Running) (hp : p ∈ s.active)
    (hfrugal : (s.written p).card < maxOpBlocks) : (s.logWrite L p b data).Running := by
  have hlt := h.lt_logSize hp hfrugal
  have hpos : 0 < s.active.card := Finset.card_pos.mpr ⟨p, hp⟩
  rw [Kernel.logWrite, if_neg (by omega), if_neg (by omega)]
  exact hrunning

/-- `end_op` of a call does not meet a commit. -/
theorem Refines.endOp_running {a : Store P} (h : s.Refines L a) (hup : s.task.up = true)
    (hp : p ∈ s.active) : (s.endOp L p).Running := by
  have hidle := h.idle_of_mem hup hp
  have hm := h.matched
  rw [hidle] at hm
  rw [Kernel.endOp, if_neg (by rw [hm.1]; exact Bool.false_ne_true)]
  split
  · exact fun e => by simp
  · exact fun e => by simp [hidle]

/-- **One event of a frugal run.** -/
theorem room_step {a : Store P} {e : Event P} (hL : (logSize : ℤ) < L.size)
    (h : s.Refines L a) (hroom : s.Room) (hrunning : s.Running) (hfrugal : Frugal s e)
    (hstep : s.step L e = some s') : s'.Room ∧ s'.Running := by
  cases e with
  | beginOp p =>
    rw [Kernel.step] at hstep
    split at hstep
    · rename_i hguard
      refine ⟨hroom.beginOp hguard.2 h.counted hstep, ?_⟩
      rw [Kernel.beginOp] at hstep
      split at hstep
      · cases hstep
      split at hstep
      · cases hstep
      rw [← Option.some.inj hstep]
      exact hrunning
    · cases hstep
  | write p b data =>
    rw [Kernel.step] at hstep
    split at hstep
    · rename_i hguard
      rw [← Option.some.inj hstep]
      exact ⟨hroom.logWrite hguard.2.1 hfrugal,
        hroom.logWrite_running hL h.counted hrunning hguard.2.1 hfrugal⟩
    · cases hstep
  | read b data =>
    rw [Kernel.step] at hstep
    split at hstep
    · rw [← Option.some.inj hstep]
      exact ⟨hroom, hrunning⟩
    · cases hstep
  | endOp p =>
    rw [Kernel.step] at hstep
    split at hstep
    · rename_i hguard
      rw [← Option.some.inj hstep]
      exact ⟨hroom.endOp, h.endOp_running hguard.1 hguard.2⟩
    · cases hstep
  | tick => exact ⟨hroom.tick hstep, Running.tick hstep⟩
  | settle =>
    obtain ⟨hidle, hactive⟩ := h.settle_idle hstep
    refine ⟨room_of_empty hactive ?_, fun e => by simp [hidle]⟩
    rw [settled_lh (h.settle hstep).2 hactive hidle]
    exact Nat.zero_le _
  | crash =>
    rw [Kernel.step, Option.some.injEq] at hstep
    rw [← hstep]
    exact ⟨room_of_empty rfl (Nat.zero_le _), fun e => by simp [boot]⟩

/-- A frugal run never stops the kernel, if the log is large enough. -/
theorem running_of_run {d₀ d : ℤ → Block} {tr : List (Event P × Unit)}
    (hL : (logSize : ℤ) < L.size) (hd : Recoverable L d₀ d)
    (hrun : Run (FrugalStep L) (boot L d) tr s) : s.Running := by
  have hstart : (∃ a : Store P, (boot L d).Refines L a) ∧ (boot L d : Kernel P).Room ∧
      (boot L d : Kernel P).Running :=
    ⟨⟨Store.fresh d₀, rfl, rfl, rfl, rfl, rfl, recoverFromLog_keeps hd⟩,
      room_of_empty rfl (Nat.zero_le _), fun e => by simp [boot]⟩
  have hinv := hrun.invariant (P := fun s => (∃ a : Store P, s.Refines L a) ∧ s.Room ∧
    s.Running) (fun s e _ t ⟨⟨a, ha⟩, hroom, hrunning⟩ ⟨hfrugal, hstep⟩ => by
      obtain ⟨a', -, ha'⟩ := ha.step hstep
      exact ⟨⟨a', ha'⟩, room_step hL ha hroom hrunning hfrugal hstep⟩) hstart
  exact hinv.2.2

omit [DecidableEq P] in
theorem tick_written (hstep : s.tick = some s') : s'.written = s.written := by
  obtain ⟨task, cache, rfl, -⟩ := eq_of_tick hstep
  rfl

omit [DecidableEq P] in
theorem settle_written (hstep : s.settle = some s') : s'.written = s.written := by
  rw [Kernel.settle] at hstep
  split at hstep
  · rw [← Option.some.inj hstep]
  · rw [← Option.some.inj hstep]
  · rw [← Option.some.inj hstep]
  · rw [← Option.some.inj hstep]
  · cases hstep

theorem endOp_written (s : Kernel P) (p : P) : (s.endOp L p).written = s.written := by
  rw [Kernel.endOp]
  split
  · rfl
  split <;> rfl

/-- A call has logged at most as many blocks as it has used `log_write`. -/
theorem written_le_logWrites {n : P → ℕ} {e : Event P} (hn : ∀ q, (s.written q).card ≤ n q)
    (hstep : s.step L e = some s') (q : P) : (s'.written q).card ≤ logWrites n e q := by
  cases e with
  | beginOp p =>
    rw [Kernel.step] at hstep
    split at hstep
    · rw [Kernel.beginOp] at hstep
      split at hstep
      · cases hstep
      split at hstep
      · cases hstep
      rw [← Option.some.inj hstep]
      change (Function.update s.written p ∅ q).card ≤ Function.update n p 0 q
      by_cases heq : q = p
      · rw [heq, Function.update_self, Function.update_self, Finset.card_empty]
      · rw [Function.update_of_ne heq, Function.update_of_ne heq]
        exact hn q
    · cases hstep
  | write p b data =>
    rw [Kernel.step] at hstep
    split at hstep
    · rw [← Option.some.inj hstep]
      have hmono : n q ≤ Function.update n p (n p + 1) q := by
        by_cases heq : q = p
        · rw [heq, Function.update_self]
          exact Nat.le_succ _
        · rw [Function.update_of_ne heq]
      rw [Kernel.logWrite]
      split
      · exact (hn q).trans hmono
      split
      · exact (hn q).trans hmono
      change (Function.update s.written p (insert b (s.written p)) q).card ≤
        Function.update n p (n p + 1) q
      by_cases heq : q = p
      · rw [heq, Function.update_self, Function.update_self]
        exact (Finset.card_insert_le _ _).trans (Nat.succ_le_succ (hn p))
      · rw [Function.update_of_ne heq, Function.update_of_ne heq]
        exact hn q
    · cases hstep
  | read b data =>
    rw [Kernel.step] at hstep
    split at hstep
    · rw [← Option.some.inj hstep]
      exact hn q
    · cases hstep
  | endOp p =>
    rw [Kernel.step] at hstep
    split at hstep
    · rw [← Option.some.inj hstep, endOp_written]
      exact hn q
    · cases hstep
  | tick =>
    rw [tick_written hstep]
    exact hn q
  | settle =>
    rw [settle_written hstep]
    exact hn q
  | crash =>
    rw [Kernel.step, Option.some.injEq] at hstep
    rw [← hstep]
    exact Nat.zero_le _

/-- A run within the budgets is frugal. -/
theorem frugal_of_withinBudget {tr : List (Event P × Unit)} (hrun : Run (Kernel.Step L) s tr s') :
    ∀ {n : P → ℕ}, (∀ q, (s.written q).card ≤ n q) → WithinBudget n tr →
      Run (FrugalStep L) s tr s' := by
  induction hrun with
  | nil s => exact fun _ _ => Run.nil s
  | @cons s t u e o tr hstep _ ih =>
    intro n hn hbudget
    refine Run.cons ⟨?_, hstep⟩ (ih (written_le_logWrites hn hstep) hbudget.2)
    cases e with
    | write p b data => exact (hn p).trans_lt hbudget.1
    | _ => trivial

end Kernel

/-! ## A log that is too small -/

/-- Thirty home blocks: behind the log area, or in front of it. -/
def freshBlock (L : LogArea) (i : ℕ) : ℤ :=
  if L.start + L.size + logSize ≤ fsSize then L.start + L.size + i else i

variable {L : LogArea} {s : Kernel ℕ} {k : ℕ}

theorem home_freshBlock (hL : L.size ≤ logSize) (hk : k < logSize) :
    L.Home (freshBlock L k) := by
  have := L.start_nonneg
  have := L.size_pos
  unfold logSize at hL hk
  unfold LogArea.Home freshBlock logSize fsSize
  split <;> omega

theorem freshBlock_injective (L : LogArea) : Function.Injective (freshBlock L) := by
  intro i j h
  unfold freshBlock at h
  split at h <;> omega

/-- Three calls are running and have written `k` blocks. -/
structure Filled (L : LogArea) (k : ℕ) (s : Kernel ℕ) : Prop where
  task : s.task = .idle
  active : s.active = {0, 1, 2}
  outstanding : s.outstanding = 3
  lh : s.lh = (List.range k).map (freshBlock L)

/-- Of `k` calls of `log_write`, the first ten are of call 0, the next ten of call 1, and so
on. -/
def spent (k p : ℕ) : ℕ := min 10 (k - 10 * p)

theorem mayWrite_spent (k : ℕ) (b : ℤ) (data : Block) :
    MayWrite (spent k) (.write (k / 10) b data) := by
  change spent k (k / 10) < maxOpBlocks
  unfold spent maxOpBlocks
  omega

theorem logWrites_spent (k : ℕ) (b : ℤ) (data : Block) :
    logWrites (spent k) (.write (k / 10) b data) = spent (k + 1) := by
  funext p
  change Function.update (spent k) (k / 10) (spent k (k / 10) + 1) p = spent (k + 1) p
  by_cases heq : p = k / 10
  · rw [heq, Function.update_self]
    unfold spent
    omega
  · rw [Function.update_of_ne heq]
    unfold spent
    omega

theorem Filled.mem_active (h : Filled L k s) (hk : k < logSize) : k / 10 ∈ s.active := by
  rw [h.active]
  have hlt : k / 10 < 3 := by
    unfold logSize at hk
    omega
  generalize k / 10 = q at hlt
  interval_cases q <;> decide

/-- The next write, of the call whose turn it is. -/
theorem Filled.step (h : Filled L k s) (hL : L.size ≤ logSize) (hk : k < logSize) :
    Kernel.Step L s (.write (k / 10) (freshBlock L k) 0) ()
      (s.logWrite L (k / 10) (freshBlock L k) 0) := by
  rw [Kernel.Step, Kernel.step, if_pos ⟨by rw [h.task]; rfl, h.mem_active hk,
    home_freshBlock hL hk⟩]

theorem Filled.succ (h : Filled L k s) (hL : L.size ≤ logSize) (hk : (k : ℤ) < L.size - 1) :
    Filled L (k + 1) (s.logWrite L (k / 10) (freshBlock L k) 0) := by
  have hlen : s.lh.length = k := by rw [h.lh, List.length_map, List.length_range]
  have hnot : freshBlock L k ∉ s.lh := by
    rw [h.lh, List.mem_map]
    rintro ⟨i, hi, heq⟩
    rw [freshBlock_injective L heq, List.mem_range] at hi
    exact lt_irrefl k hi
  rw [Kernel.logWrite, if_neg (by rw [hlen]; omega), if_neg (by rw [h.outstanding]; omega)]
  refine ⟨h.task, h.active, h.outstanding, ?_⟩
  change (if freshBlock L k ∈ s.lh then s.lh else s.lh ++ [freshBlock L k]) = _
  rw [if_neg hnot, h.lh, List.range_succ, List.map_append, List.map_singleton]

/-- The write that finds as many blocks listed as the log area can hold. -/
theorem Filled.halts (h : Filled L k s) (hk : (k : ℤ) = L.size - 1) :
    (s.logWrite L (k / 10) (freshBlock L k) 0).task = .halted .tooBigTransaction := by
  have hlen : s.lh.length = k := by rw [h.lh, List.length_map, List.length_range]
  rw [Kernel.logWrite, if_pos (Or.inr (by rw [hlen]; omega))]

/-- The calls write until the list reaches the size of the log area; `j` writes are left. -/
theorem Filled.exists_halted (hL : L.size ≤ logSize) :
    ∀ {j k : ℕ} {s : Kernel ℕ}, Filled L k s → ((k + j : ℕ) : ℤ) = L.size - 1 →
      ∃ tr t, Run (Kernel.Step L) s tr t ∧ WithinBudget (spent k) tr ∧
        t.task = .halted .tooBigTransaction := by
  intro j
  induction j with
  | zero =>
    intro k s h hk
    exact ⟨_, _, Run.cons (h.step hL (by omega)) (Run.nil _),
      ⟨mayWrite_spent k _ _, trivial⟩, h.halts hk⟩
  | succ j ih =>
    intro k s h hk
    obtain ⟨tr, t, hrun, hbudget, ht⟩ := ih (h.succ hL (by omega)) (by omega)
    refine ⟨_, t, Run.cons (h.step hL (by omega)) hrun, ⟨mayWrite_spent k _ _, ?_⟩, ht⟩
    rw [logWrites_spent]
    exact hbudget

/-- A boot uses no budget. -/
theorem withinBudget_of_boot {n : ℕ → ℕ} {tr' : List (Event ℕ × Unit)}
    (hbudget : WithinBudget n tr') :
    ∀ {tr : List (Event ℕ × Unit)}, (∀ e ∈ tr, Event.ofBoot e.1 = true) →
      WithinBudget n (tr ++ tr')
  | [], _ => hbudget
  | (e, _) :: tr, htr => by
    have ih := withinBudget_of_boot hbudget fun e he => htr e (List.mem_cons_of_mem _ he)
    have hboot := htr _ List.mem_cons_self
    cases e with
    | beginOp p => cases hboot
    | write p b data => cases hboot
    | _ => exact ⟨trivial, ih⟩

/-- Three calls that have begun behind a boot. -/
def threeCalls (L : LogArea) (m : Cached ℤ Block) : Kernel ℕ :=
  { (boot L fun _ _ => 0 : Kernel ℕ) with
    task := .idle
    cache := m
    outstanding := 3
    active := {2, 1, 0}
    written := Function.update (Function.update (Function.update (fun _ => ∅) 0 ∅) 1 ∅) 2 ∅ }

theorem filled_threeCalls (L : LogArea) (m : Cached ℤ Block) : Filled L 0 (threeCalls L m) where
  task := rfl
  active := (by decide : ({2, 1, 0} : Finset ℕ) = {0, 1, 2})
  outstanding := rfl
  lh := rfl

/-- **A log of `LOGSIZE` blocks or fewer is too small**: three calls that keep to their budgets
stop the kernel. -/
theorem exists_halted (hL : L.size ≤ logSize) :
    ∃ tr, ∃ s : Kernel ℕ, Run (Kernel.Step L) (boot L fun _ _ => 0) tr s ∧
      WithinBudget (fun _ => 0) tr ∧ s.task = .halted .tooBigTransaction := by
  obtain ⟨tr, m, hboot, htr, -⟩ := boot_recovers (P := ℕ) (recoverable_zero L)
  have hbegin : Run (Kernel.Step L)
      { (boot L fun _ _ => 0 : Kernel ℕ) with task := .idle, cache := m }
      [(.beginOp 0, ()), (.beginOp 1, ()), (.beginOp 2, ())] (threeCalls L m) :=
    Run.cons rfl (Run.cons rfl (Run.cons rfl (Run.nil _)))
  obtain ⟨j, hj⟩ := Int.eq_ofNat_of_zero_le (a := L.size - 1) (by have := L.size_pos; omega)
  obtain ⟨tr', s, hrun, hbudget, hs⟩ :=
    (filled_threeCalls L m).exists_halted hL (j := j) (by omega)
  have hzero : ∀ p : ℕ, Function.update (fun _ : ℕ => 0) p 0 = fun _ => 0 :=
    fun p => Function.update_eq_self p _
  have hspent : spent 0 = fun _ => 0 := by
    funext p
    unfold spent
    omega
  have hrest : WithinBudget (fun _ : ℕ => 0)
      ((.beginOp 0, ()) :: (.beginOp 1, ()) :: (.beginOp 2, ()) :: tr') := by
    refine ⟨trivial, trivial, trivial, ?_⟩
    change WithinBudget (Function.update (Function.update (Function.update
      (fun _ : ℕ => 0) 0 0) 1 0) 2 0) tr'
    rw [hzero, hzero, hzero, ← hspent]
    exact hbudget
  refine ⟨_, s, (hboot.append hbegin).append hrun, ?_, hs⟩
  rw [List.append_assoc]
  exact withinBudget_of_boot hrest htr

/-- **The reservation of `begin_op` is enough exactly if the log area has more than `LOGSIZE`
blocks.**  Then no run whose calls use `log_write` at most `MAXOPBLOCKS` times each stops the
kernel, whatever the calls write and wherever the machine crashes; otherwise there is such a run
that does. -/
theorem no_halt_iff (L : LogArea) :
    (∀ (d₀ d : ℤ → Block) (tr : List (Event ℕ × Unit)) (s : Kernel ℕ), Recoverable L d₀ d →
      Run (Kernel.Step L) (boot L d) tr s → WithinBudget (fun _ => 0) tr →
        ∀ e, s.task ≠ .halted e) ↔ logSize < L.size := by
  constructor
  · intro h
    by_contra hL
    obtain ⟨tr, s, hrun, hbudget, hs⟩ := exists_halted (not_lt.mp hL)
    exact h _ _ tr s (recoverable_zero L) hrun hbudget _ hs
  · intro hL d₀ d tr s hd hrun hbudget
    exact Kernel.running_of_run hL hd
      (Kernel.frugal_of_withinBudget hrun (fun _ => Nat.zero_le _) hbudget)

/-- A log area with one block more than `mkfs` gives it. -/
def widerLog : LogArea :=
  { mkfsLog with
    size := 31
    size_pos := by decide
    fits := by decide }

/-- Two calls at once that write the same block, their commit, and a crash within the next
call. -/
def sharedCommit : List (Event ℕ) :=
  List.replicate 3 .tick ++
    [.settle, .beginOp 0, .beginOp 1, .write 0 100 fun _ => 7, .write 1 100 fun _ => 8,
      .write 0 100 fun _ => 9, .endOp 0, .endOp 1] ++
    List.replicate 10 .tick ++ [.settle, .beginOp 1, .write 1 102 fun _ => 5, .crash]

theorem no_halt_iff_sharedCommit :
    (∃ s : Kernel ℕ, Run (Kernel.Step widerLog) (boot widerLog fun _ _ => 0)
        (sharedCommit.map fun e => (e, ())) s ∧ ∀ e, s.task ≠ .halted e) ∧
      ∃ d₀ d tr, ∃ s : Kernel ℕ, Recoverable mkfsLog d₀ d ∧
        Run (Kernel.Step mkfsLog) (boot mkfsLog d) tr s ∧ WithinBudget (fun _ => 0) tr ∧
        ∃ e, s.task = .halted e := by
  constructor
  · have hsome : (sharedCommit.foldlM (Kernel.step widerLog)
        (boot widerLog fun _ _ => 0)).isSome = true := by decide +kernel
    obtain ⟨s, hs⟩ := Option.isSome_iff_exists.mp hsome
    exact ⟨s, Run.of_foldlM hs, (no_halt_iff widerLog).mpr (by decide) _ _ _ s
      (recoverable_zero _) (Run.of_foldlM hs) (by decide)⟩
  · by_contra hnot
    have hsize := (no_halt_iff mkfsLog).mp fun d₀ d tr s hd hrun hbudget e he =>
      hnot ⟨d₀, d, tr, s, hd, hrun, hbudget, e, he⟩
    exact absurd hsize (by decide)

end Log
end Xv6
end SystemsProjects

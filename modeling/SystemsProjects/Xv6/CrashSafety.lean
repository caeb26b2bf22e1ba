import SystemsProjects.Lib.Exec
import SystemsProjects.Xv6.Log

/-!
# Crash safety of the log

The log as a system.  Processes start and end file-system calls (`begin_op`, `end_op`), change
blocks within them (a `bread`, a change of the buffer, `log_write`, a `brelse`), and read blocks
at any time; the thread that commits, or the one that recovers at boot, makes one access to the
disk at a time; and the machine may crash at any point and boot again from what is on its disk.
These events come in any order.

What the log is for is said by `Store`, an atomic store with two contents.  Calls change the
`pending` one, and reads see it; a crash throws it away; and at some moment at which no call is
running it becomes the `stable` one, all at once.  `run_refines` is the connection: every run of
the log is a run of the atomic store with the same visible events, so that no crash, at whatever
access of a commit or of a recovery, leaves a part of a transaction.
-/

namespace SystemsProjects
namespace Xv6
namespace Log

open Lib

variable {P : Type}

/-- The events of the log and of the atomic store, with the processes `P`. -/
inductive Event (P : Type) where
  | beginOp (p : P)
  | write (p : P) (b : ℤ) (data : Block)
  | read (b : ℤ) (data : Block)
  | endOp (p : P)
  /-- an access to the disk; of the atomic store, the moment of the commit -/
  | tick
  /-- `end_op` has committed, or the boot has recovered -/
  | settle
  | crash

/-- The events that the users of the file system take part in. -/
def Event.visible : Event P → Bool
  | .tick => false
  | _ => true

/-- The visible part of a run. -/
def visible (tr : List (Event P × Unit)) : List (Event P) :=
  (tr.map Prod.fst).filter Event.visible

/-! ## The atomic store -/

/-- What is seen, what survives a crash, and who is within a call. -/
structure Store (P : Type) where
  stable : ℤ → Block
  pending : ℤ → Block
  active : Finset P

/-- **The atomic store.** -/
inductive Store.Step [DecidableEq P] : Store P → Event P → Unit → Store P → Prop where
  | beginOp {a : Store P} {p : P} (h : p ∉ a.active) :
      Step a (.beginOp p) () { a with active := insert p a.active }
  | write {a : Store P} {p : P} (b : ℤ) (data : Block) (h : p ∈ a.active) :
      Step a (.write p b data) () { a with pending := Function.update a.pending b data }
  | read (a : Store P) (b : ℤ) : Step a (.read b (a.pending b)) () a
  | endOp {a : Store P} {p : P} (h : p ∈ a.active) :
      Step a (.endOp p) () { a with active := a.active.erase p }
  /-- the pending content becomes stable while no call is running -/
  | tick {a : Store P} (h : a.active = ∅) : Step a .tick () { a with stable := a.pending }
  /-- a call that has waited for a commit returns: nothing is pending -/
  | settle {a : Store P} (h : a.active = ∅) (hs : a.stable = a.pending) : Step a .settle () a
  | crash (a : Store P) : Step a .crash () { a with pending := a.stable, active := ∅ }

/-- The atomic store with contents `d`, before any call. -/
def Store.fresh (d : ℤ → Block) : Store P := ⟨d, d, ∅⟩

/-! ## The kernel -/

/-- What the committing thread, or the kernel at boot, still has to do. -/
inductive Task where
  | idle
  | commits (p : DiskProg (List ℤ))
  | recovers (p : DiskProg (List ℤ))
  | halted (e : Panic)

/-- The file system can be used. -/
def Task.up : Task → Bool
  | .idle => true
  | .commits _ => true
  | .recovers _ => false
  | .halted _ => false

/-- `struct log` with the buffer cache, and the processes that are within a call.  `written` is
not in the source: the blocks that a process has logged since its `begin_op`. -/
structure Kernel (P : Type) where
  cache : Cached ℤ Block
  lh : List ℤ
  outstanding : ℕ
  committing : Bool
  active : Finset P
  written : P → Finset ℤ
  task : Task

/-- `initlog` at boot: the memory is clear, and the recovery begins. -/
def boot (L : LogArea) (d : ℤ → Block) : Kernel P where
  cache := Cached.ofDisk d
  lh := []
  outstanding := 0
  committing := false
  active := ∅
  written _ := ∅
  task := .recovers (recoverFromLog L)

namespace Kernel

variable (L : LogArea)

/-- `begin_op`; a process that has to wait sleeps. -/
def beginOp [DecidableEq P] (s : Kernel P) (p : P) : Option (Kernel P) :=
  if s.committing then
    none
  else if logSize < s.lh.length + (s.outstanding + 1) * maxOpBlocks then
    none
  else
    some { s with
      outstanding := s.outstanding + 1
      active := insert p s.active
      written := Function.update s.written p ∅ }

/-- A block changed in its buffer, and `log_write`. -/
def logWrite [DecidableEq P] (s : Kernel P) (p : P) (b : ℤ) (data : Block) : Kernel P :=
  if logSize ≤ s.lh.length ∨ L.size - 1 ≤ s.lh.length then
    { s with task := .halted .tooBigTransaction }
  else if s.outstanding < 1 then
    { s with task := .halted .outsideOfTransaction }
  else
    { s with
      cache := s.cache.modify b data
      lh := if b ∈ s.lh then s.lh else s.lh ++ [b]
      written := Function.update s.written p (insert b (s.written p)) }

/-- `end_op` up to the commit, if there is one. -/
def endOp [DecidableEq P] (s : Kernel P) (p : P) : Kernel P :=
  let s' := { s with outstanding := s.outstanding - 1, active := s.active.erase p }
  if s.committing then
    { s' with task := .halted .logCommitting }
  else if s'.outstanding = 0 then
    { s' with committing := true, task := .commits (commit L s.lh) }
  else
    s'

/-- One access to the disk. -/
def tick (s : Kernel P) : Option (Kernel P) :=
  match s.task with
  | .commits p => (p.access s.cache).map fun r => { s with task := .commits r.1, cache := r.2 }
  | .recovers p => (p.access s.cache).map fun r => { s with task := .recovers r.1, cache := r.2 }
  | .idle => none
  | .halted _ => none

/-- The end of a commit or of a recovery. -/
def settle (s : Kernel P) : Option (Kernel P) :=
  match s.task with
  | .commits (.ret lh) => some { s with lh := lh, committing := false, task := .idle }
  | .recovers (.ret lh) => some { s with lh := lh, task := .idle }
  | .commits (.fail e) => some { s with task := .halted e }
  | .recovers (.fail e) => some { s with task := .halted e }
  | _ => none

/-- **The log, event by event.**  A process begins a call that it is not in, changes home blocks
within a call, and ends the call that it is in. -/
def step [DecidableEq P] (s : Kernel P) : Event P → Option (Kernel P)
  | .beginOp p => if s.task.up ∧ p ∉ s.active then s.beginOp p else none
  | .write p b data =>
      if s.task.up ∧ p ∈ s.active ∧ L.Home b then some (s.logWrite L p b data) else none
  | .read b data =>
      if s.task.up ∧ L.Home b ∧ s.cache.view b = data then some s else none
  | .endOp p => if s.task.up ∧ p ∈ s.active then some (s.endOp L p) else none
  | .tick => s.tick
  | .settle => s.settle
  | .crash => some (boot L s.cache.disk)

/-- The log as a transition relation. -/
def Step [DecidableEq P] (s : Kernel P) (e : Event P) (_ : Unit) (s' : Kernel P) : Prop :=
  s.step L e = some s'

/-! ## The relation to the atomic store -/

/-- The result of a commit or a recovery. -/
def Settled (stable : ℤ → Block) (lh : List ℤ) (m : Cached ℤ Block) : Prop :=
  lh = [] ∧ Clean L stable m

/-- What the disk and the cache have to do with the atomic store, by what the log is doing. -/
def Matches (s : Kernel P) (a : Store P) : Task → Prop
  | .idle => s.committing = false ∧ Copying L s.lh a.stable a.pending 0 s.cache ∧
      (s.lh = [] → a.stable = a.pending) ∧ (s.active = ∅ → s.lh = [])
  | .commits p => s.committing = true ∧ s.active = ∅ ∧
      (Prog.Switches (Serves L True a.stable a.pending) (Serves L True a.pending a.pending)
          (Settled L a.pending) p s.cache ∨
        a.stable = a.pending ∧
          Prog.Keeps (Serves L True a.pending a.pending) (Settled L a.pending) p s.cache)
  | .recovers p => s.committing = false ∧ s.active = ∅ ∧ a.stable = a.pending ∧
      Prog.Keeps (Serves L False a.stable a.stable) (Settled L a.stable) p s.cache
  | .halted _ => Recoverable L a.stable s.cache.disk

/-- **The log and the atomic store that it implements.** -/
structure Refines (s : Kernel P) (a : Store P) : Prop where
  active : s.active = a.active
  counted : s.outstanding = s.active.card
  matched : s.Matches L a s.task

variable {L} {s s' : Kernel P} {a : Store P} {p : P} {b : ℤ} {data : Block}

/-- **At all times the disk is worth the stable content.** -/
theorem Refines.recoverable (h : s.Refines L a) : Recoverable L a.stable s.cache.disk := by
  have hm := h.matched
  cases htask : s.task with
  | idle =>
    rw [htask] at hm
    exact hm.2.1.logged.recoverable
  | commits q =>
    rw [htask] at hm
    rcases hm.2.2 with hs | ⟨heq, hk⟩
    · exact hs.crash.1
    · rw [heq]
      exact hk.crash.1
  | recovers q =>
    rw [htask] at hm
    exact hm.2.2.2.crash.1
  | halted e =>
    rw [htask] at hm
    exact hm

/-- A boot after a crash. -/
theorem refines_boot (h : Recoverable L a.stable s.cache.disk) :
    (boot L s.cache.disk : Kernel P).Refines L { a with pending := a.stable, active := ∅ } where
  active := rfl
  counted := rfl
  matched := ⟨rfl, rfl, rfl, recoverFromLog_keeps h⟩

/-- A log that can be used gathers the blocks of calls, or commits. -/
theorem Refines.idle_or_commits (h : s.Refines L a) (hup : s.task.up = true) :
    s.task = .idle ∨ ∃ q, s.task = .commits q ∧ s.committing = true ∧ s.active = ∅ := by
  have hm := h.matched
  cases htask : s.task with
  | idle => exact Or.inl rfl
  | commits q =>
    rw [htask] at hm
    exact Or.inr ⟨q, rfl, hm.1, hm.2.1⟩
  | recovers q =>
    rw [htask] at hup
    cases hup
  | halted e =>
    rw [htask] at hup
    cases hup

/-- While calls are running, the log gathers their blocks. -/
theorem Refines.idle_of_mem (h : s.Refines L a) (hup : s.task.up = true) (hp : p ∈ s.active) :
    s.task = .idle := by
  rcases h.idle_or_commits hup with hidle | ⟨q, -, -, hactive⟩
  · exact hidle
  · exact absurd (hactive ▸ hp) (Finset.notMem_empty p)

/-- What is read is what is pending. -/
theorem Refines.view_eq (h : s.Refines L a) (hup : s.task.up = true) (hb : L.Home b) :
    s.cache.view b = a.pending b := by
  have hm := h.matched
  rcases h.idle_or_commits hup with hidle | ⟨q, htask, -, -⟩
  · rw [hidle] at hm
    exact hm.2.1.view b hb
  · rw [htask] at hm
    rcases hm.2.2 with hs | ⟨-, hk⟩
    · exact hs.crash.2 trivial b hb
    · exact hk.crash.2 trivial b hb

/-! ## One event -/

variable [DecidableEq P]

theorem Refines.beginOp (h : s.Refines L a) (hup : s.task.up = true) (hp : p ∉ s.active)
    (hstep : s.beginOp p = some s') :
    s'.Refines L { a with active := insert p a.active } := by
  rw [Kernel.beginOp] at hstep
  split at hstep
  · cases hstep
  rename_i hcommitting
  split at hstep
  · cases hstep
  rw [← Option.some.inj hstep]
  have hidle : s.task = .idle := by
    rcases h.idle_or_commits hup with hidle | ⟨q, -, hc, -⟩
    · exact hidle
    · exact absurd hc hcommitting
  have hm := h.matched
  rw [hidle] at hm
  refine ⟨by rw [h.active], ?_, ?_⟩
  · rw [Finset.card_insert_of_notMem hp, h.counted]
  · rw [hidle]
    exact ⟨hm.1, hm.2.1, hm.2.2.1, fun hnil => absurd hnil (Finset.insert_ne_empty p _)⟩

/-- The list behind `log_write`, which has room for the block. -/
theorem loggable_absorb {lh : List ℤ} (h : Loggable L lh) (hb : L.Home b)
    (h₁ : lh.length < logSize) (h₂ : (lh.length : ℤ) < L.size - 1) :
    Loggable L (if b ∈ lh then lh else lh ++ [b]) := by
  split
  · exact h
  · refine ⟨?_, ?_, fun c hc => ?_⟩
    · rw [List.length_append, List.length_singleton]
      exact h₁
    · rw [List.length_append, List.length_singleton, Nat.cast_succ]
      omega
    · rw [List.mem_append, List.mem_singleton] at hc
      rcases hc with hc | rfl
      · exact h.home c hc
      · exact hb

theorem mem_absorb {lh : List ℤ} {c : ℤ} :
    c ∈ (if b ∈ lh then lh else lh ++ [b]) ↔ c = b ∨ c ∈ lh := by
  split
  · rename_i hb
    exact ⟨Or.inr, fun h => h.elim (fun heq => heq ▸ hb) id⟩
  · rw [List.mem_append, List.mem_singleton, or_comm]

theorem Refines.logWrite (h : s.Refines L a) (hup : s.task.up = true) (hp : p ∈ s.active)
    (hb : L.Home b) :
    (s.logWrite L p b data).Refines L
      { a with pending := Function.update a.pending b data } := by
  have hrecover := h.recoverable
  have hidle := h.idle_of_mem hup hp
  have hm := h.matched
  rw [hidle] at hm
  obtain ⟨hcommitting, hcopy, -, -⟩ := hm
  rw [Kernel.logWrite]
  split
  · exact ⟨h.active, h.counted, hrecover⟩
  rename_i hroom
  split
  · exact ⟨h.active, h.counted, hrecover⟩
  rw [not_or, not_le, not_le] at hroom
  refine ⟨h.active, h.counted, ?_⟩
  rw [hidle]
  refine ⟨hcommitting, ⟨?_, hcopy.logged, fun c hc => ?_, fun c hc => ?_, fun i _ hi => ?_⟩,
    fun hnil => ?_, fun hnil => ?_⟩
  · exact loggable_absorb hcopy.loggable hb hroom.1 hroom.2
  · change Function.update s.cache.view b data c = Function.update a.pending b data c
    by_cases heq : c = b
    · rw [heq, Function.update_self, Function.update_self]
    · rw [Function.update_of_ne heq, Function.update_of_ne heq]
      exact hcopy.view c hc
  · rw [Cached.modify_pinned, Finset.mem_insert] at hc
    exact mem_absorb.mpr (hc.imp_right (hcopy.pinned c))
  · exact absurd hi (Nat.not_lt_zero i)
  · have hmem : b ∈ if b ∈ s.lh then s.lh else s.lh ++ [b] := mem_absorb.mpr (Or.inl rfl)
    change (if b ∈ s.lh then s.lh else s.lh ++ [b]) = [] at hnil
    rw [hnil] at hmem
    cases hmem
  · exact absurd (hnil ▸ hp) (Finset.notMem_empty p)

theorem Refines.endOp (h : s.Refines L a) (hup : s.task.up = true) (hp : p ∈ s.active) :
    (s.endOp L p).Refines L { a with active := a.active.erase p } := by
  have hidle := h.idle_of_mem hup hp
  have hm := h.matched
  rw [hidle] at hm
  obtain ⟨hcommitting, hcopy, hsettled, -⟩ := hm
  have hcount : s.outstanding - 1 = (s.active.erase p).card := by
    rw [Finset.card_erase_of_mem hp, h.counted]
  rw [Kernel.endOp, if_neg (by rw [hcommitting]; exact Bool.false_ne_true)]
  split
  · rename_i hzero
    have hempty : s.active.erase p = ∅ := Finset.card_eq_zero.mp (hcount ▸ hzero)
    refine ⟨by rw [h.active], hcount, rfl, hempty, ?_⟩
    by_cases hnil : s.lh = []
    · refine Or.inr ⟨hsettled hnil, ?_⟩
      rw [hnil] at hcopy ⊢
      have hclean : Clean L a.pending s.cache :=
        ⟨hsettled hnil ▸ hcopy.logged,
          Finset.eq_empty_of_forall_notMem fun c hc => by simpa using hcopy.pinned c hc⟩
      exact ⟨hclean.serves, rfl, hclean⟩
    · exact Or.inl (commit_switches hcopy hnil)
  · rename_i hpos
    refine ⟨by rw [h.active], hcount, ?_⟩
    rw [hidle]
    refine ⟨hcommitting, hcopy, hsettled, fun hempty => absurd ?_ hpos⟩
    rw [hcount]
    exact Finset.card_eq_zero.mpr hempty

/-- An access of a commit may be the moment at which the atomic store commits. -/
theorem Refines.tick (h : s.Refines L a) (hstep : s.tick = some s') :
    ∃ a', (a' = a ∨ Store.Step a .tick () a') ∧ s'.Refines L a' := by
  have hm := h.matched
  rw [Kernel.tick] at hstep
  cases htask : s.task with
  | idle =>
    rw [htask] at hstep
    cases hstep
  | halted e =>
    rw [htask] at hstep
    cases hstep
  | recovers q =>
    rw [htask] at hstep hm
    obtain ⟨⟨q', c'⟩, haccess, hs'⟩ := Option.map_eq_some_iff.mp hstep
    rw [← hs']
    exact ⟨a, Or.inl rfl, h.active, h.counted, hm.1, hm.2.1, hm.2.2.1,
      hm.2.2.2.access haccess⟩
  | commits q =>
    rw [htask] at hstep hm
    obtain ⟨⟨q', c'⟩, haccess, hs'⟩ := Option.map_eq_some_iff.mp hstep
    obtain ⟨hcommitting, hactive, hm⟩ := hm
    rw [← hs']
    rcases hm with hs | ⟨heq, hk⟩
    · rcases hs.access haccess with hs | hk
      · exact ⟨a, Or.inl rfl, h.active, h.counted, hcommitting, hactive, Or.inl hs⟩
      · refine ⟨{ a with stable := a.pending }, Or.inr (Store.Step.tick ?_), h.active,
          h.counted, hcommitting, hactive, Or.inr ⟨rfl, hk⟩⟩
        rw [← h.active, hactive]
    · exact ⟨a, Or.inl rfl, h.active, h.counted, hcommitting, hactive,
        Or.inr ⟨heq, hk.access haccess⟩⟩

omit [DecidableEq P] in
/-- The log behind a commit or a recovery. -/
theorem matches_settled {lh : List ℤ} (heq : a.stable = a.pending)
    (h : Settled L a.pending lh s.cache) :
    Copying L lh a.stable a.pending 0 s.cache := by
  obtain ⟨rfl, hclean⟩ := h
  refine ⟨loggable_nil, heq ▸ hclean.logged, fun b hb => hclean.view_eq hb, fun b hb => ?_,
    fun i _ hi => absurd hi (Nat.not_lt_zero i)⟩
  rw [hclean.pinned] at hb
  exact absurd hb (Finset.notMem_empty b)

theorem Refines.settle (h : s.Refines L a) (hstep : s.settle = some s') :
    Store.Step a .settle () a ∧ s'.Refines L a := by
  have hm := h.matched
  rw [Kernel.settle] at hstep
  split at hstep
  · rename_i lh htask
    rw [htask] at hm
    obtain ⟨-, hactive, hs | ⟨heq, hk⟩⟩ := hm
    · exact hs.elim
    · rw [← Option.some.inj hstep]
      exact ⟨Store.Step.settle (h.active ▸ hactive) heq, h.active, h.counted, rfl,
        matches_settled heq hk.2, fun _ => heq, fun _ => hk.2.1⟩
  · rename_i lh htask
    rw [htask] at hm
    obtain ⟨hcommitting, hactive, heq, hk⟩ := hm
    rw [← Option.some.inj hstep]
    exact ⟨Store.Step.settle (h.active ▸ hactive) heq, h.active, h.counted, hcommitting,
      matches_settled heq (heq ▸ hk.2), fun _ => heq, fun _ => hk.2.1⟩
  · rename_i e htask
    rw [htask] at hm
    obtain ⟨-, -, hs | ⟨-, hk⟩⟩ := hm
    · exact hs.elim
    · exact hk.elim
  · rename_i e htask
    rw [htask] at hm
    exact hm.2.2.2.elim
  · cases hstep

/-- **One event of the log is one event of the atomic store**, or an access that it does not
see. -/
theorem Refines.step {e : Event P} (h : s.Refines L a) (hstep : s.step L e = some s') :
    ∃ a', (e.visible = false ∧ a' = a ∨ Store.Step a e () a') ∧ s'.Refines L a' := by
  cases e with
  | beginOp p =>
    rw [Kernel.step] at hstep
    split at hstep
    · rename_i hguard
      exact ⟨_, Or.inr (Store.Step.beginOp (h.active ▸ hguard.2)),
        h.beginOp hguard.1 hguard.2 hstep⟩
    · cases hstep
  | write p b data =>
    rw [Kernel.step] at hstep
    split at hstep
    · rename_i hguard
      rw [← Option.some.inj hstep]
      exact ⟨_, Or.inr (Store.Step.write b data (h.active ▸ hguard.2.1)),
        h.logWrite hguard.1 hguard.2.1 hguard.2.2⟩
    · cases hstep
  | read b data =>
    rw [Kernel.step] at hstep
    split at hstep
    · rename_i hguard
      obtain ⟨hup, hb, hdata⟩ := hguard
      rw [← Option.some.inj hstep, ← hdata, h.view_eq hup hb]
      exact ⟨a, Or.inr (Store.Step.read a b), h⟩
    · cases hstep
  | endOp p =>
    rw [Kernel.step] at hstep
    split at hstep
    · rename_i hguard
      rw [← Option.some.inj hstep]
      exact ⟨_, Or.inr (Store.Step.endOp (h.active ▸ hguard.2)), h.endOp hguard.1 hguard.2⟩
    · cases hstep
  | tick =>
    obtain ⟨a', ha', hr⟩ := h.tick hstep
    exact ⟨a', ha'.imp_left fun heq => ⟨rfl, heq⟩, hr⟩
  | settle => exact ⟨a, Or.inr (h.settle hstep).1, (h.settle hstep).2⟩
  | crash =>
    rw [Kernel.step, Option.some.injEq] at hstep
    rw [← hstep]
    exact ⟨_, Or.inr (Store.Step.crash a), refines_boot h.recoverable⟩

/-! ## Whole runs -/

/-- A run that starts in related states. -/
theorem Refines.run {tr : List (Event P × Unit)} (hrun : Run (Kernel.Step L) s tr s') :
    ∀ {a : Store P}, s.Refines L a →
      ∃ tr' a', Run Store.Step a tr' a' ∧ visible tr' = visible tr ∧ s'.Refines L a' := by
  induction hrun with
  | nil s => exact fun {a} h => ⟨[], a, Run.nil a, rfl, h⟩
  | @cons s t u e o tr hstep _ ih =>
    intro a h
    obtain ⟨a₁, ha₁, h₁⟩ := h.step hstep
    obtain ⟨tr', a', hrun', hvisible, hr⟩ := ih h₁
    rcases ha₁ with ⟨hhidden, rfl⟩ | hs
    · refine ⟨tr', a', hrun', ?_, hr⟩
      rw [hvisible, visible, visible, List.map_cons, List.filter_cons, hhidden]
      rfl
    · refine ⟨(e, ()) :: tr', a', Run.cons hs hrun', ?_, hr⟩
      rw [visible, visible] at hvisible ⊢
      rw [List.map_cons, List.filter_cons, List.map_cons, List.filter_cons, hvisible]

end Kernel

/-- The events of a boot. -/
def Event.ofBoot : Event P → Bool
  | .tick => true
  | .settle => true
  | _ => false

/-- The accesses of a recovery are events of the log. -/
theorem run_of_accesses [DecidableEq P] {L : LogArea} {x y : DiskProg (List ℤ) × Cached ℤ Block}
    (h : Relation.ReflTransGen (fun x y => x.1.access x.2 = some y) x y) (s : Kernel P) :
    ∃ tr, Run (Kernel.Step L) { s with task := .recovers x.1, cache := x.2 } tr
        { s with task := .recovers y.1, cache := y.2 } ∧ ∀ e ∈ tr, Event.ofBoot e.1 = true := by
  induction h using Relation.ReflTransGen.head_induction_on with
  | refl => exact ⟨[], Run.nil _, by simp⟩
  | head hstep _ ih =>
    obtain ⟨tr, hrun, htr⟩ := ih
    refine ⟨(.tick, ()) :: tr, Run.cons ?_ hrun, ?_⟩
    · simp only [Kernel.Step, Kernel.step, Kernel.tick, hstep, Option.map_some]
    · intro e he
      rcases List.mem_cons.mp he with rfl | he
      · rfl
      · exact htr e he

/-- **A boot gives back the stable content.** -/
theorem boot_recovers [DecidableEq P] {L : LogArea} {stable d : ℤ → Block}
    (h : Recoverable L stable d) :
    ∃ tr m, Run (Kernel.Step L) (boot L d : Kernel P) tr
        { boot L d with task := .idle, cache := m } ∧
      (∀ e ∈ tr, Event.ofBoot e.1 = true) ∧ Clean L stable m := by
  obtain ⟨lh, m, haccesses, rfl, hclean⟩ := (recoverFromLog_keeps h).ends
  obtain ⟨tr, hrun, htr⟩ := run_of_accesses (L := L) haccesses (boot L d : Kernel P)
  have hend : Kernel.Step L
      { (boot L d : Kernel P) with task := .recovers (.ret []), cache := m } .settle ()
      { (boot L d : Kernel P) with task := .idle, cache := m } := rfl
  refine ⟨tr ++ [(.settle, ())], m, hrun.append (Run.cons hend (Run.nil _)), ?_, hclean⟩
  intro e he
  rcases List.mem_append.mp he with he | he
  · exact htr e he
  · rw [List.mem_singleton.mp he]
    rfl

/-- **The log implements the atomic store.**  Every run from a boot of a disk that is worth
`d₀`, with calls of any processes in any order and crashes at any access of a commit or a
recovery, has the same visible events as a run of the atomic store; and wherever it has come
to, a boot from its disk gives back the stable content of that store. -/
theorem run_refines [DecidableEq P] {L : LogArea} {d₀ d : ℤ → Block} {s : Kernel P}
    {tr : List (Event P × Unit)} (hd : Recoverable L d₀ d)
    (hrun : Run (Kernel.Step L) (boot L d) tr s) :
    ∃ tr' a, Run Store.Step (Store.fresh d₀) tr' a ∧ visible tr' = visible tr ∧
      ∃ tr'', ∃ s' : Kernel P, Run (Kernel.Step L) (boot L s.cache.disk) tr'' s' ∧
        (∀ e ∈ tr'', Event.ofBoot e.1 = true) ∧ s'.task = .idle ∧
        ∀ b, L.Home b → s'.cache.view b = a.stable b := by
  have hstart : (boot L d : Kernel P).Refines L (Store.fresh d₀) :=
    ⟨rfl, rfl, rfl, rfl, rfl, recoverFromLog_keeps hd⟩
  obtain ⟨tr', a, hrun', hvisible, hr⟩ := Kernel.Refines.run hrun hstart
  obtain ⟨tr'', m, hboot, hevents, hclean⟩ := boot_recovers (P := P) hr.recoverable
  exact ⟨tr', a, hrun', hvisible, tr'', _, hboot, hevents, rfl, fun b hb => hclean.view_eq hb⟩

/-- The log as `mkfs` lays it out. -/
def mkfsLog : LogArea where
  start := 2
  size := 30
  start_nonneg := by decide
  size_pos := by decide
  fits := by decide

/-- A disk of zeros is worth its home blocks: its header lists nothing. -/
theorem recoverable_zero (L : LogArea) :
    Recoverable L (fun _ _ => 0) (fun _ _ => 0) :=
  ⟨[], loggable_nil, ⟨rfl, fun i hi => absurd hi (Nat.not_lt_zero i)⟩,
    fun i hi => absurd hi (Nat.not_lt_zero i), fun _ _ _ => rfl⟩

/-- A call that writes block 100, and a crash behind the write of the header. -/
def crashedCommit : List (Event ℕ) :=
  List.replicate 3 .tick ++
    [.settle, .beginOp 0, .write 0 100 fun _ => 7, .read 100 fun _ => 7, .endOp 0] ++
    List.replicate 5 .tick ++ [.crash, .tick, .tick]

theorem run_refines_crashedCommit : ∃ s : Kernel ℕ,
    Run (Kernel.Step mkfsLog) (boot mkfsLog fun _ _ => 0)
        (crashedCommit.map fun e => (e, ())) s ∧
      ∃ tr' a, Run Store.Step (Store.fresh fun _ _ => 0) tr' a ∧
        visible tr' = visible (crashedCommit.map fun e => (e, ())) ∧
        ∃ tr'', ∃ s' : Kernel ℕ, Run (Kernel.Step mkfsLog) (boot mkfsLog s.cache.disk) tr'' s' ∧
          (∀ e ∈ tr'', Event.ofBoot e.1 = true) ∧ s'.task = .idle ∧
          ∀ b, mkfsLog.Home b → s'.cache.view b = a.stable b := by
  have hsome : (crashedCommit.foldlM (Kernel.step mkfsLog)
      (boot mkfsLog fun _ _ => 0)).isSome = true := by decide +kernel
  obtain ⟨s, hs⟩ := Option.isSome_iff_exists.mp hsome
  exact ⟨s, Run.of_foldlM hs, run_refines (recoverable_zero _) (Run.of_foldlM hs)⟩

end Log
end Xv6
end SystemsProjects

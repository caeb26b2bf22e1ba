import SystemsProjects.AdvancedMemory.Migration
import SystemsProjects.Lib.Avoids

/-!
# What a call does to the mutexes

Each function takes the mutex of the processor that it was told, and gives the same one
back on each of its paths, except one: `myfree` of a block that is free already returns
between `lock` and `unlock`.  Nothing here depends on what is in the memory.  A search
may fail on a broken list, or go round in circles, but it never touches a mutex, so the
section it is part of either gives its mutex back or does not return.

`Avoids .deadlock` is the form of all statements: the call does not wait for a mutex
that the thread has itself, and no mutex is taken when it returns.
-/

namespace SystemsProjects
namespace AdvancedMemory

open Lib Allocator BlockStore

/-! ## Calls -/

/-- A call of one of the three functions, with what they learn from the system. -/
inductive Request where
  | malloc (s : ℕ) (env : Environment)
  | calloc (nmemb s cpu : ℕ) (env : Environment)
  | free (cpu ptr : ℕ)
  deriving DecidableEq, Repr

/-- The call, with the pointer that is returned. -/
def Request.run (cpus : ℕ) (h : Heap Memory) : Request → Except Stop (Heap Memory × ℕ)
  | .malloc s env => mymalloc h cpus env s
  | .calloc nmemb s cpu env => mycalloc h cpus env cpu nmemb s
  | .free cpu ptr => do
      let h ← myfree h cpu ptr
      pure (h, 0)

/-- A call that returns. -/
def Returns (cpus : ℕ) (h : Heap Memory) (c : Request) (out : ℕ) (h' : Heap Memory) : Prop :=
  c.run cpus h = .ok (h', out)

/-- No mutex is taken. -/
def NoLock (h : Heap Memory) : Prop := ∀ cpu, h.locks cpu = false

/-- **The call is balanced**: it does not wait for a mutex that the thread has, and
leaves none taken. -/
def Balanced (cpus : ℕ) (h : Heap Memory) (c : Request) : Prop :=
  c.run cpus h ≠ .error .deadlock ∧ ∀ out h', Returns cpus h c out h' → NoLock h'

/-- `myfree` of a block whose header says that it is free. -/
def Request.FreesFree (h : Heap Memory) : Request → Prop
  | .free _ ptr => ptr ≠ 0 ∧ load h.mem .free (headerOf ptr) = .ok 1
  | _ => False

variable {h h' : Heap Memory} {cpu cpus s b : ℕ} {env : Environment}

/-! ## Accesses to the memory -/

theorem load_avoids (m : Memory) (f : Field) (b : ℕ) :
    Avoids .deadlock (load m f b) fun _ => True := by
  show Avoids _ (m.load _ _ _) _
  rw [Memory.load]
  split
  · exact Avoids.ok trivial
  · exact Avoids.error (by decide)

theorem memory_store_avoids (m : Memory) (a n v : ℕ) :
    Avoids Stop.deadlock (m.store Stop.segfault a n v) fun _ => True := by
  rw [Memory.store]
  split
  · exact Avoids.ok trivial
  · exact Avoids.error (by decide)

theorem store_avoids (m : Memory) (f : Field) (b v : ℕ) :
    Avoids .deadlock (store m f b v) fun _ => True :=
  memory_store_avoids m _ _ _

theorem head_avoids (h : Heap Memory) (cpu : ℕ) :
    Avoids .deadlock (h.head cpu) fun _ => True := by
  rw [Heap.head]
  split
  · split
    · exact Avoids.ok trivial
    · exact Avoids.error (by decide)
  · exact Avoids.error (by decide)
  · exact Avoids.error (by decide)

theorem betterBlock_avoids (m : Memory) (s b optimal : ℕ) :
    Avoids .deadlock (betterBlock m s b optimal) fun _ => True := by
  rw [betterBlock]
  refine (load_avoids m _ _).bind fun size _ => ?_
  split
  · refine (load_avoids m _ _).bind fun free _ => ?_
    split
    · split
      · exact Avoids.ok trivial
      · exact (load_avoids m _ _).bind fun _ _ => Avoids.ok trivial
    · exact Avoids.ok trivial
  · exact Avoids.ok trivial

theorem searchList_avoids (m : Memory) (s list : ℕ) :
    Avoids .deadlock (searchList m s list) fun _ => True := by
  refine Avoids.loop (P := fun _ => True) (by decide) (fun q _ => ?_) trivial
  obtain ⟨b, optimal⟩ := q
  rw [findOptimalBody]
  split
  · exact Avoids.ok trivial
  · refine (betterBlock_avoids m s b optimal).bind fun _ _ => ?_
    exact (load_avoids m _ _).bind fun _ _ => Avoids.ok trivial

theorem getLastBlock_avoids (h : Heap Memory) (cpu : ℕ) :
    Avoids .deadlock (getLastBlock h cpu) fun _ => True := by
  rw [getLastBlock]
  refine (head_avoids h cpu).bind fun list _ => ?_
  rw [lastOfList]
  split
  · exact Avoids.ok trivial
  · refine Avoids.loop (P := fun _ => True) (by decide) (fun last _ => ?_) trivial
    rw [lastBlockBody]
    refine (load_avoids h.mem _ _).bind fun next _ => ?_
    split
    · exact Avoids.ok trivial
    · exact Avoids.ok trivial

/-! ## Sections -/

/-- The mutex of the processor is taken, and no other one. -/
def OnlyLock (h : Heap Memory) (cpu : ℕ) : Prop :=
  h.locks = Function.update (fun _ => false) cpu true

theorem lockMutex_avoids (hfree : NoLock h) (cpu : ℕ) :
    Avoids .deadlock (lockMutex h cpu) fun h' => OnlyLock h' cpu ∧ h'.mem = h.mem := by
  rw [lockMutex, hfree cpu, if_neg (by decide)]
  refine Avoids.ok ⟨?_, rfl⟩
  rw [OnlyLock, show h.locks = fun _ => false from funext hfree]

theorem OnlyLock.unlock (hlock : OnlyLock h cpu) : NoLock (unlockMutex h cpu) := by
  intro x
  show Function.update h.locks cpu false x = false
  rw [hlock]
  by_cases hx : x = cpu
  · rw [hx, Function.update_self]
  · rw [Function.update_of_ne hx, Function.update_of_ne hx]

theorem findOptimalFreeBlock_avoids (hfree : NoLock h) (cpu s : ℕ) :
    Avoids .deadlock (findOptimalFreeBlock h cpu s) fun r => NoLock r.1 := by
  rw [findOptimalFreeBlock]
  refine (lockMutex_avoids hfree cpu).bind fun h₁ hlock => ?_
  refine (head_avoids h₁ cpu).bind fun list _ => ?_
  refine (searchList_avoids h₁.mem s list).bind fun optimal _ => ?_
  exact Avoids.ok hlock.1.unlock

theorem splitBlock_avoids (hfree : NoLock h) (cpu b s : ℕ) :
    Avoids .deadlock (splitBlock h cpu b s) NoLock := by
  rw [splitBlock]
  refine (lockMutex_avoids hfree cpu).bind fun h₁ hlock => ?_
  refine (load_avoids h₁.mem _ _).bind fun size _ => ?_
  refine (store_avoids h₁.mem _ _ _).bind fun m₁ _ => ?_
  refine (load_avoids m₁ _ _).bind fun next _ => ?_
  refine (store_avoids m₁ _ _ _).bind fun m₂ _ => ?_
  refine (store_avoids m₂ _ _ _).bind fun m₃ _ => ?_
  refine (store_avoids m₃ _ _ _).bind fun m₄ _ => ?_
  refine (store_avoids m₄ _ _ _).bind fun m₅ _ => ?_
  exact Avoids.ok (OnlyLock.unlock hlock.1)

theorem linkBlock_avoids (hlock : OnlyLock h cpu) (c last newBlock : ℕ) :
    Avoids .deadlock (linkBlock h c last newBlock) fun h' => OnlyLock h' cpu := by
  refine ⟨?_, fun h' hlink => (locks_of_linkBlock hlink).trans hlock⟩
  suffices hsuff : Avoids .deadlock (linkBlock h c last newBlock) fun _ => True from hsuff.1
  rw [linkBlock]
  split
  · rw [Heap.setHead]
    split
    · split
      · exact Avoids.ok trivial
      · exact Avoids.error (by decide)
    · exact Avoids.error (by decide)
    · exact Avoids.error (by decide)
  · exact (store_avoids h.mem _ _ _).bind fun _ _ => Avoids.ok trivial

theorem extendSection_avoids (hfree : NoLock h) (cpu lastCpu s : ℕ) (answer : Option ℕ) :
    Avoids .deadlock (extendSection h cpu lastCpu s answer) fun r => NoLock r.1 := by
  rw [extendSection]
  refine (lockMutex_avoids hfree cpu).bind fun h₁ hlock => ?_
  refine (getLastBlock_avoids h₁ lastCpu).bind fun last _ => ?_
  cases answer with
  | none => exact Avoids.ok hlock.1.unlock
  | some a =>
    dsimp only
    refine (store_avoids _ _ _ _).bind fun m₁ _ => ?_
    refine (store_avoids m₁ _ _ _).bind fun m₂ _ => ?_
    refine (store_avoids m₂ _ _ _).bind fun m₃ _ => ?_
    have hlock₁ : OnlyLock ⟨m₃, h₁.blockHead, h₁.locks, h₁.created ++ [a]⟩ cpu := hlock.1
    refine (linkBlock_avoids hlock₁ _ _ _).bind fun h₂ hlock₂ => ?_
    refine (load_avoids h₂.mem _ _).bind fun size _ => ?_
    exact Avoids.ok hlock₂.unlock

/-! ## The functions -/

theorem initHeap_noLock (hfree : NoLock h) (cpus : ℕ) (answer : Option ℕ) :
    NoLock (initHeap h cpus answer) := by
  rw [initHeap]
  split
  · refine initLocks_locks _ cpus ?_
    cases answer with
    | none => exact hfree
    | some a => exact hfree
  · exact hfree

theorem extendMemory_avoids (hfree : NoLock h) (env : Environment) (s : ℕ) :
    Avoids .deadlock (extendMemory h env s) fun r => NoLock r.1 := by
  rw [extendMemory]
  refine (extendSection_avoids hfree _ _ _ _).bind fun r hr => ?_
  obtain ⟨h₁, new⟩ := r
  cases new with
  | none => exact Avoids.ok hr
  | some q =>
    dsimp only
    split
    · refine (splitBlock_avoids hr _ _ _).bind fun h₂ hfree₂ => ?_
      refine (lockMutex_avoids hfree₂ _).bind fun h₃ hlock => ?_
      exact Avoids.ok hlock.1.unlock
    · exact Avoids.ok hr

theorem mymalloc_avoids (hfree : NoLock h) (cpus : ℕ) (env : Environment) (s : ℕ) :
    Avoids .deadlock (mymalloc h cpus env s) fun r => NoLock r.1 := by
  rw [mymalloc]
  refine (findOptimalFreeBlock_avoids (initHeap_noLock hfree _ _) _ _).bind fun r hr => ?_
  obtain ⟨h₁, b⟩ := r
  dsimp only
  split
  · refine (store_avoids _ _ _ _).bind fun m₁ _ => ?_
    refine (load_avoids m₁ _ _).bind fun size _ => ?_
    split
    · exact (splitBlock_avoids (h := ⟨m₁, h₁.blockHead, h₁.locks, h₁.created⟩) hr _ _ _).bind
        fun h₂ hfree₂ => Avoids.ok hfree₂
    · exact Avoids.ok hr
  · exact extendMemory_avoids hr _ _

theorem mycalloc_avoids (hfree : NoLock h) (cpus : ℕ) (env : Environment) (cpu nmemb s : ℕ) :
    Avoids .deadlock (mycalloc h cpus env cpu nmemb s) fun r => NoLock r.1 := by
  have hinit := initHeap_noLock hfree cpus env.heads
  rw [mycalloc]
  dsimp only
  split
  · exact Avoids.ok hinit
  · refine (mymalloc_avoids hinit _ _ _).bind fun r hr => ?_
    refine (lockMutex_avoids hr cpu).bind fun h₁ hlock => ?_
    refine (memory_store_avoids h₁.mem _ _ _).bind fun m₁ _ => ?_
    exact Avoids.ok (OnlyLock.unlock hlock.1)

/-- `myfree` gives its mutex back, unless the block is free. -/
theorem myfree_avoids (hfree : NoLock h) (cpu ptr : ℕ) :
    Avoids .deadlock (myfree h cpu ptr) fun h' =>
      (Request.free cpu ptr).FreesFree h ∨ NoLock h' := by
  rw [myfree]
  split
  · exact Avoids.ok (Or.inr hfree)
  · rename_i hptr
    refine (lockMutex_avoids hfree cpu).bind fun h₁ hlock => ?_
    obtain ⟨hlock, hmem⟩ := hlock
    dsimp only
    rw [hmem]
    have hload : Avoids .deadlock (load h.mem .free (headerOf ptr)) fun free =>
        load h.mem .free (headerOf ptr) = .ok free := ⟨(load_avoids _ _ _).1, fun _ ha => ha⟩
    refine hload.bind fun free hload => ?_
    split
    · rename_i hone
      exact Avoids.ok (Or.inl ⟨hptr, hone ▸ hload⟩)
    · refine (store_avoids _ _ _ _).bind fun m₁ _ => ?_
      exact Avoids.ok (Or.inr (OnlyLock.unlock hlock))

/-- **A single call.**  It never waits for its own mutex, and is balanced unless it frees
a block that is free. -/
theorem NoLock.call (hfree : NoLock h) (cpus : ℕ) (c : Request) :
    c.run cpus h ≠ .error .deadlock ∧ (Balanced cpus h c ↔ ¬ c.FreesFree h) := by
  cases c with
  | malloc s env =>
    have hcall := mymalloc_avoids hfree cpus env s
    exact ⟨hcall.1, iff_of_true ⟨hcall.1, fun out h' hr => hcall.2 (h', out) hr⟩ id⟩
  | calloc nmemb s cpu env =>
    have hcall := mycalloc_avoids hfree cpus env cpu nmemb s
    exact ⟨hcall.1, iff_of_true ⟨hcall.1, fun out h' hr => hcall.2 (h', out) hr⟩ id⟩
  | free cpu ptr =>
    have hcall : Avoids .deadlock ((Request.free cpu ptr).run cpus h) fun r =>
        (Request.free cpu ptr).FreesFree h ∨ NoLock r.1 :=
      (myfree_avoids hfree cpu ptr).bind fun h₁ hh₁ => Avoids.ok hh₁
    refine ⟨hcall.1, fun hbalanced hfreed => ?_, fun hnot => ⟨hcall.1, fun out h' hr => ?_⟩⟩
    · -- the call returns with the mutex
      obtain ⟨hptr, hload⟩ := hfreed
      have hreturn : Returns cpus h (.free cpu ptr) 0
          { h with locks := Function.update h.locks cpu true } := by
        rw [Returns, Request.run, myfree, if_neg hptr, lockMutex, hfree cpu, if_neg (by decide),
          pure_eq_ok, ok_bind]
        dsimp only
        rw [hload, ok_bind, if_pos rfl]
        rfl
      have htaken := hbalanced.2 _ _ hreturn cpu
      rw [show ({ h with locks := Function.update h.locks cpu true } : Heap Memory).locks cpu =
        Function.update h.locks cpu true cpu from rfl, Function.update_self] at htaken
      cases htaken
    · exact (hcall.2 (h', out) hr).resolve_left hnot

/-! ## Runs -/

/-- **Lock balance, under the condition.**  In every run without `myfree` of a block that
is free, no mutex is taken between two calls.  So the next call, whatever it is, does not
wait, and it is balanced exactly if it does not free a free block either. -/
theorem lock_balance_of_run (cpus : ℕ) (h₀ h : Heap Memory) (hinit : Initial h₀)
    (tr : List (Request × ℕ))
    (hrun : Run (Guarded (fun h c => ¬ c.FreesFree h) (Returns cpus)) h₀ tr h) :
    NoLock h ∧ ∀ c : Request,
      c.run cpus h ≠ .error .deadlock ∧ (Balanced cpus h c ↔ ¬ c.FreesFree h) := by
  have hfree : NoLock h := by
    refine hrun.invariant (fun h c out h' hfree hs => ?_) hinit.locks
    exact ((hfree.call cpus c).2.mpr hs.1).2 out h' hs.2
  exact ⟨hfree, hfree.call cpus⟩

/-- A block that is freed and given out again. -/
def balancedTrace : List (Request × ℕ) :=
  [(.malloc 8 (pinned 0 (some 4096) (some 8192)), 8216), (.free 0 8216, 0),
   (.calloc 2 4 0 (pinned 0 none none), 8216)]

theorem lock_balance_again : ∃ h, NoLock h ∧ Balanced 1 h (.free 0 8216) := by
  obtain ⟨h, hrun, hload⟩ : ∃ h,
      Run (Guarded (fun h c => ¬ c.FreesFree h) (Returns 1)) emptyHeap balancedTrace h ∧
        load h.mem .free 8192 = .ok 0 := by
    refine ⟨_, Run.cons ⟨id, rfl⟩ (Run.cons ⟨?_, rfl⟩ (Run.cons ⟨id, rfl⟩ (Run.nil _))), rfl⟩
    exact fun hc => absurd (Except.ok.inj hc.2) (by decide)
  obtain ⟨hfree, hcall⟩ :=
    lock_balance_of_run 1 emptyHeap h initial_emptyHeap balancedTrace hrun
  refine ⟨h, hfree, (hcall (.free 0 8216)).2.mpr fun hc => ?_⟩
  have hone : load h.mem .free 8192 = .ok 1 := hc.2
  rw [hload] at hone
  cases hone

/-- **A mutex that is kept.**  The second `myfree` of a pointer keeps the mutex, and the
next call on this processor waits for ever. -/
theorem not_lock_balance : ∃ h, Initial emptyHeap ∧
    Run (Returns 1) emptyHeap
      [(.malloc 8 (pinned 0 (some 4096) (some 8192)), 8216), (.free 0 8216, 0),
       (.free 0 8216, 0)] h ∧
    h.locks 0 = true ∧ mymalloc h 1 (pinned 0 none none) 8 = .error .deadlock :=
  ⟨_, initial_emptyHeap, Run.cons rfl (Run.cons rfl (Run.cons rfl (Run.nil _))), rfl, rfl⟩

end AdvancedMemory
end SystemsProjects

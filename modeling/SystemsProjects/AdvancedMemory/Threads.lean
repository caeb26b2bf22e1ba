import SystemsProjects.AdvancedMemory.CpuLists

/-!
# Threads that share the allocator

Any number of threads call `mymalloc` and `myfree`.  A section between `lock` and
`unlock` is one step, and so is each statement outside of a lock that reads or writes
something shared: the test of `block_head`, its assignment, each `pthread_mutex_init`,
`bestBlock -> free = 0`, and the test of the size.  A thread is given a processor at
each `sched_getcpu`, and the operating system answers as in the other modules.

A thread that finds a mutex taken waits: its step is not possible.  The same is said of
an access that faults, which ends the program.
-/

namespace SystemsProjects
namespace AdvancedMemory
namespace Threads

open Lib Allocator BlockStore

variable {ι : Type} [DecidableEq ι]

/-- What a thread does next.  `s` is the size that was asked for. -/
inductive PC where
  /-- not in a call of the allocator -/
  | idle
  /-- `if(block_head==NULL)` -/
  | test (s : ℕ)
  /-- `block_head = sbrk(...)` -/
  | allocate (s : ℕ)
  /-- the loop of `pthread_mutex_init` -/
  | initLock (s x : ℕ)
  /-- `findOptimalFreeBlock` -/
  | search (s : ℕ)
  /-- `bestBlock -> free = 0` -/
  | claim (s b : ℕ)
  /-- the test of the size in `mymalloc` -/
  | sizeTest (s b : ℕ)
  /-- `splitBlock` in `mymalloc` -/
  | split (s b : ℕ)
  /-- `extendMemory` up to its first `unlock` -/
  | extend (s : ℕ)
  /-- `splitBlock` in `extendMemory`, which will lock `cpu` again -/
  | extendSplit (s b cpu : ℕ)
  /-- the second `lock` and `unlock` of `extendMemory` -/
  | relock (s b cpu : ℕ)
  /-- `return`, of the payload of a block or of NULL -/
  | ret (s : ℕ) (block : Option ℕ)
  deriving DecidableEq, Repr

/-- A pointer that a thread has been given and has not freed. -/
structure Allocation (ι : Type) where
  owner : ι
  pointer : ℕ
  size : ℕ
  deriving DecidableEq, Repr

/-- The shared heap, the threads and the live allocations. -/
structure World (ι : Type) where
  heap : Heap Memory
  pc : ι → PC
  live : List (Allocation ι)

/-- What a thread may do: begin a call, call `myfree`, or go on, on the processor that
`sched_getcpu` names, with the one that `getLastBlock` is told and with the answer of
the operating system. -/
inductive Action where
  | malloc (s : ℕ)
  | free (ptr cpu : ℕ)
  | go (cpu lastCpu : ℕ) (answer : Option ℕ)
  deriving DecidableEq, Repr

/-- Thread `i` goes on with `pc`, in the heap `h`. -/
def World.next (w : World ι) (i : ι) (h : Heap Memory) (pc : PC) : World ι :=
  { w with heap := h, pc := Function.update w.pc i pc }

/-- The result of a section that may have to wait. -/
def completed {α : Type} : Except Stop α → Option α
  | .ok a => some a
  | .error _ => none

/-- Where `extendMemory` goes on after its first `unlock`. -/
def afterExtend (s cpu : ℕ) : Option (ℕ × Bool) → PC
  | none => .ret s none
  | some (b, true) => .extendSplit s b cpu
  | some (b, false) => .ret s (some b)

/-- One step of a thread in a call. -/
def goOn (cpus : ℕ) (w : World ι) (i : ι) (cpu lastCpu : ℕ) (answer : Option ℕ) :
    PC → Option (World ι)
  | .idle => none
  | .test s =>
      some (w.next i w.heap (if w.heap.blockHead = .null then .allocate s else .search s))
  | .allocate s => some (w.next i (allocateHeads w.heap cpus answer) (.initLock s 0))
  | .initLock s x =>
      if x < cpus then some (w.next i (unlockMutex w.heap x) (.initLock s (x + 1)))
      else some (w.next i w.heap (.search s))
  | .search s => do
      let (h, b) ← completed (findOptimalFreeBlock w.heap cpu s)
      some (w.next i h (if b ≠ 0 then .claim s b else .extend s))
  | .claim s b => do
      let mem ← completed (store w.heap.mem .free b 0)
      some (w.next i { w.heap with mem := mem } (.sizeTest s b))
  | .sizeTest s b => do
      let size ← completed (load w.heap.mem .size b)
      some (w.next i w.heap (if Splittable size s then .split s b else .ret s (some b)))
  | .split s b => do
      let h ← completed (splitBlock w.heap cpu b s)
      some (w.next i h (.ret s (some b)))
  | .extend s => do
      let (h, new) ← completed (extendSection w.heap cpu lastCpu s answer)
      some (w.next i h (afterExtend s cpu new))
  | .extendSplit s b c => do
      let h ← completed (splitBlock w.heap cpu b s)
      some (w.next i h (.relock s b c))
  | .relock s b c => do
      let h ← completed (lockMutex w.heap c)
      some (w.next i (unlockMutex h c) (.ret s (some b)))
  | .ret _ none => some (w.next i w.heap .idle)
  | .ret s (some b) =>
      some { w.next i w.heap .idle with live := ⟨i, payload b, s⟩ :: w.live }

/-- One step of thread `e.1`. -/
def step (cpus : ℕ) (w : World ι) (e : ι × Action) : Option (World ι) :=
  match e.2 with
  | .malloc s => if w.pc e.1 = .idle then some (w.next e.1 w.heap (.test s)) else none
  | .free ptr cpu =>
    if w.pc e.1 = .idle then do
      let h ← completed (myfree w.heap cpu ptr)
      some { w with
        heap := h
        live := w.live.filter fun a => ¬ (a.owner = e.1 ∧ a.pointer = ptr) }
    else none
  | .go cpu lastCpu answer => goOn cpus w e.1 cpu lastCpu answer (w.pc e.1)

/-- The region that the operating system maps if it answers with `a`. -/
def PC.asks (cpus a : ℕ) : PC → Option Extent
  | .allocate _ => some ⟨a, 8 * cpus⟩
  | .extend s => some (request s a).1
  | _ => none

/-- The machine has no more processors than there are mutexes, the operating system
answers with new regions, and a thread frees NULL or a pointer that it owns. -/
def Allowed (cpus : ℕ) (w : World ι) : ι × Action → Prop
  | (_, .malloc s) => s < 2 ^ 64 ∧ cpus ≤ lockCount
  | (i, .free ptr _) => ptr = 0 ∨ ∃ a ∈ w.live, a.owner = i ∧ a.pointer = ptr
  | (i, .go _ _ answer) => ∀ a ∈ answer, ∀ r ∈ (w.pc i).asks cpus a, Fresh w.heap.mem r

instance (cpus : ℕ) (w : World ι) : (e : ι × Action) → Decidable (Allowed cpus w e)
  | (_, .malloc _) => inferInstanceAs (Decidable (_ ∧ _))
  | (_, .free _ _) => inferInstanceAs (Decidable (_ ∨ _))
  | (_, .go _ _ answer) => inferInstanceAs (Decidable (∀ a ∈ answer, _))

/-- An action that is allowed, and does not have to wait. -/
def Step (cpus : ℕ) : World ι → ι × Action → Unit → World ι → Prop :=
  Guarded (Allowed cpus) fun w e _ w' => step cpus w e = some w'

/-- Before the first call of any thread. -/
structure Initial (w : World ι) : Prop where
  blockHead : w.heap.blockHead = .null
  created : w.heap.created = []
  regions : w.heap.mem.mapped = []
  locks : ∀ cpu, w.heap.locks cpu = false
  pc : ∀ i, w.pc i = .idle
  live : w.live = []

end Threads
end AdvancedMemory
end SystemsProjects

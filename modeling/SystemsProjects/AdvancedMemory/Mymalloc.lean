import SystemsProjects.Allocator.FreeList
import SystemsProjects.Lib.CInt

/-!
# The second allocator: `Assignment8_AdvancedMemory/part1/starter/mymalloc.c`

A list of blocks for every processor, each guarded by a mutex.  Large requests are
served by `mmap`, and a block that is larger than the request is split.

Each function asks `sched_getcpu` for itself, so the processor is an argument of
each of them.  The parts of the code between `pthread_mutex_lock` and
`pthread_mutex_unlock` are definitions of their own (`findOptimalFreeBlock`,
`extendSection`, `splitBlock`, `myfree`); `mymalloc` puts them together for a thread
that runs alone.

The operating system answers `sbrk` and `mmap` with an address or with a failure.
`sbrk` maps as many bytes as it is asked for, `mmap` maps whole pages.  New memory is
zero, so the array of list heads starts with NULL everywhere.  The array `locks` of the
source has `lockCount` entries and the first call initializes one for each processor, so
the programs of the other modules run on machines with at most that many; here `locks`
has an entry for every number.  `created` is a history variable, the blocks that
`extendMemory` and `splitBlock` have made, oldest first.
-/

namespace SystemsProjects
namespace AdvancedMemory

open Lib Allocator BlockStore

variable {M : Type} [BlockStore M]

/-- The global `block_head`. -/
inductive Heads where
  | null
  /-- what a failing `sbrk` returns, `(void*) -1` -/
  | failed
  /-- one list for each processor -/
  | array (lists : List ℕ)
  deriving DecidableEq, Repr

/-- The length of the array `locks`. -/
def lockCount : ℕ := 128

/-- The memory and the globals `block_head` and `locks`. -/
structure Heap (M : Type) where
  mem : M
  blockHead : Heads
  locks : ℕ → Bool
  created : List ℕ

/-! ## The globals -/

/-- `block_head[cpu]`. -/
def Heap.head (h : Heap M) (cpu : ℕ) : Except Stop ℕ :=
  match h.blockHead with
  | .array lists =>
    match lists[cpu]? with
    | some list => pure list
    | none => .error .segfault
  | .null => .error .segfault
  | .failed => .error .segfault

/-- `block_head[cpu] = b`. -/
def Heap.setHead (h : Heap M) (cpu b : ℕ) : Except Stop (Heap M) :=
  match h.blockHead with
  | .array lists =>
    if cpu < lists.length then pure { h with blockHead := .array (lists.set cpu b) }
    else .error .segfault
  | .null => .error .segfault
  | .failed => .error .segfault

/-- `pthread_mutex_lock`.  A mutex that is taken is not given back to a thread that
waits for itself. -/
def lockMutex (h : Heap M) (cpu : ℕ) : Except Stop (Heap M) :=
  if h.locks cpu then .error .deadlock
  else pure { h with locks := Function.update h.locks cpu true }

/-- `pthread_mutex_unlock` and `pthread_mutex_init`. -/
def unlockMutex (h : Heap M) (cpu : ℕ) : Heap M :=
  { h with locks := Function.update h.locks cpu false }

/-- `block_head = sbrk(sizeof(block_t*)*cpus)`. -/
def allocateHeads (h : Heap M) (cpus : ℕ) (answer : Option ℕ) : Heap M :=
  match answer with
  | none => { h with blockHead := .failed }
  | some a =>
    { h with mem := map h.mem ⟨a, 8 * cpus⟩, blockHead := .array (List.replicate cpus 0) }

/-- The loop of `pthread_mutex_init`, which stays inside of `locks` on a machine with at most
`lockCount` processors. -/
def initLocks (h : Heap M) (cpus : ℕ) : Heap M :=
  (List.range cpus).foldl unlockMutex h

/-! ## The sections under a lock -/

/-- The smallest free block of the list that is large enough, or NULL. -/
def findOptimalFreeBlock (h : Heap M) (cpu s : ℕ) : Except Stop (Heap M × ℕ) := do
  let h ← lockMutex h cpu
  let list ← h.head cpu
  let optimal ← searchList h.mem s list
  pure (unlockMutex h cpu, optimal)

/-- The last block of the list, or NULL. -/
def getLastBlock (h : Heap M) (cpu : ℕ) : Except Stop ℕ := do
  let list ← h.head cpu
  lastOfList h.mem list

/-- `size >= s + sizeof(block_t) + 4`. -/
def Splittable (size s : ℕ) : Prop := (s + blockSize + 4) % 2 ^ 64 ≤ size

instance (size s : ℕ) : Decidable (Splittable size s) :=
  inferInstanceAs (Decidable (_ ≤ _))

/-- `size - s - sizeof(block_t)`. -/
def remainder (size s : ℕ) : ℕ := (size + (2 ^ 64 - (s + blockSize) % 2 ^ 64)) % 2 ^ 64

/-- The address of the block that is cut off behind `s` bytes. -/
def additionalBlock (block s : ℕ) : ℕ := (block + s + blockSize) % 2 ^ 64

/-- The block keeps `s` bytes, and what is behind them becomes a free block. -/
def splitBlock (h : Heap M) (cpu block s : ℕ) : Except Stop (Heap M) := do
  let h ← lockMutex h cpu
  let additional := additionalBlock block s
  let size ← load h.mem .size block
  let mem ← store h.mem .size additional (remainder size s)
  let next ← load mem .next block
  let mem ← store mem .next additional next
  let mem ← store mem .free additional 1
  let mem ← store mem .size block s
  let mem ← store mem .next block additional
  pure (unlockMutex { h with mem := mem, created := h.created ++ [additional] } cpu)

/-- The bytes that `mmap` maps for a request of `s` bytes. -/
def mappedLength (s : ℕ) : ℕ := (s + 4095) / 4096 * 4096

/-- The size that `extendMemory` records for a block from `mmap`. -/
def recordedSize (s : ℕ) : ℕ := ((s - 1) / 4096 + 1) * 4096 % 2 ^ 64

/-- The region behind a new block, and the size recorded in it. -/
def request (s a : ℕ) : Extent × ℕ :=
  if s > 4095 then (⟨a, mappedLength s⟩, recordedSize s) else (⟨a, s + blockSize⟩, s)

/-- The new block becomes the list of `cpu` or the next block of `last`. -/
def linkBlock (h : Heap M) (cpu last newBlock : ℕ) : Except Stop (Heap M) :=
  if last = 0 then h.setHead cpu newBlock
  else do
    let mem ← store h.mem .next last newBlock
    pure { h with mem := mem }

/-- `extendMemory` up to the call of `splitBlock` or the last `unlock`: the new block
and whether it is to be split, or nothing if the operating system refuses. -/
def extendSection (h : Heap M) (cpu lastCpu s : ℕ) (answer : Option ℕ) :
    Except Stop (Heap M × Option (ℕ × Bool)) := do
  let h ← lockMutex h cpu
  let last ← getLastBlock h lastCpu
  match answer with
  | none => pure (unlockMutex h cpu, none)
  | some newBlock => do
    let (region, size) := request s newBlock
    let mem ← store (map h.mem region) .size newBlock size
    let mem ← store mem .next newBlock 0
    let mem ← store mem .free newBlock 0
    let h ← linkBlock { h with mem := mem, created := h.created ++ [newBlock] } cpu last newBlock
    let newSize ← load h.mem .size newBlock
    pure (unlockMutex h cpu, some (newBlock, decide (Splittable newSize s)))

/-! ## The functions -/

/-- What the functions learn from the system during one call: the processors that
`sched_getcpu` names at each place, and the answers of `sbrk` and `mmap`. -/
structure Environment where
  find : ℕ
  extend : ℕ
  last : ℕ
  split : ℕ
  heads : Option ℕ
  answer : Option ℕ
  deriving DecidableEq, Repr

/-- The payload of the new block, or NULL. -/
def extendMemory (h : Heap M) (env : Environment) (s : ℕ) : Except Stop (Heap M × ℕ) := do
  let (h, new) ← extendSection h env.extend env.last s env.answer
  match new with
  | none => pure (h, 0)
  | some (newBlock, toSplit) =>
    if toSplit then do
      let h ← splitBlock h env.split newBlock s
      let h ← lockMutex h env.extend
      pure (unlockMutex h env.extend, payload newBlock)
    else pure (h, payload newBlock)

/-- The global heap is set up by the first call. -/
def initHeap (h : Heap M) (cpus : ℕ) (answer : Option ℕ) : Heap M :=
  if h.blockHead = .null then initLocks (allocateHeads h cpus answer) cpus else h

/-- The payload of a block of the list, or of a new one. -/
def mymalloc (h : Heap M) (cpus : ℕ) (env : Environment) (s : ℕ) :
    Except Stop (Heap M × ℕ) := do
  let (h, bestBlock) ← findOptimalFreeBlock (initHeap h cpus env.heads) env.find s
  if bestBlock ≠ 0 then do
    let mem ← store h.mem .free bestBlock 0
    let h := { h with mem := mem }
    let size ← load h.mem .size bestBlock
    if Splittable size s then do
      let h ← splitBlock h env.split bestBlock s
      pure (h, payload bestBlock)
    else pure (h, payload bestBlock)
  else extendMemory h env s

/-- A block that is free already is left with the mutex taken. -/
def myfree (h : Heap M) (cpu ptr : ℕ) : Except Stop (Heap M) :=
  if ptr = 0 then pure h
  else do
    let h ← lockMutex h cpu
    let ptrBlock := headerOf ptr
    let free ← load h.mem .free ptrBlock
    if free = 1 then pure h
    else do
      let mem ← store h.mem .free ptrBlock 1
      pure (unlockMutex { h with mem := mem } cpu)

/-- `memset(p, 0, n)`. -/
def clear (m : Memory) (p n : ℕ) : Except Stop Memory := m.store .segfault p n 0

/-- `cpu` is the processor that `mycalloc` asks for itself.  What `mymalloc` returns is
not tested. -/
def mycalloc (h : Heap Memory) (cpus : ℕ) (env : Environment) (cpu nmemb s : ℕ) :
    Except Stop (Heap Memory × ℕ) :=
  let h := initHeap h cpus env.heads
  if nmemb = 0 ∨ s = 0 then pure (h, 0)
  else do
    let (h, p) ← mymalloc h cpus env (nmemb * s % 2 ^ 64)
    let h ← lockMutex h cpu
    let mem ← clear h.mem p (nmemb * s % 2 ^ 64)
    pure (unlockMutex { h with mem := mem } cpu, p)

end AdvancedMemory
end SystemsProjects

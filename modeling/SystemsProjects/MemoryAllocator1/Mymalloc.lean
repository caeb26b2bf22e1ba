import SystemsProjects.Allocator.FreeList
import SystemsProjects.Lib.CInt

/-!
# The first allocator: `Assignment6_MemoryAllocator1/part1/mymalloc.c`

One list of blocks, first growing by `sbrk` and then served from the blocks that
have been freed.  A block keeps the size that it was created with.

`sbrk` is a parameter: for a memory and an increment it fails or answers with an
address and the memory after the call.  `created` is a history variable, the
blocks that `extendMemory` has made, oldest first.
-/

namespace SystemsProjects
namespace MemoryAllocator1

open Lib Allocator BlockStore

variable {M : Type} [BlockStore M]

/-- The memory and the global `block_head`. -/
structure Heap (M : Type) where
  mem : M
  blockHead : ℕ
  created : List ℕ

/-- An operating system: what `sbrk` answers. -/
abbrev Sbrk (M : Type) := M → ℤ → Option (ℕ × M)

/-- The smallest free block that is large enough, the first of them, or NULL. -/
def findOptimalFreeBlock (h : Heap M) (s : ℕ) : Except Stop ℕ :=
  searchList h.mem s h.blockHead

/-- The last block of the list, or NULL. -/
def getLastBlock (h : Heap M) : Except Stop ℕ := lastOfList h.mem h.blockHead

/-- `s + BLOCK_SIZE`, converted to the type of `sbrk`'s argument. -/
def increment (s : ℕ) : ℤ := toInt64 ((s + blockSize) % 2 ^ 64 : ℕ)

/-- The payload of the new block, or NULL if `sbrk` fails. -/
def extendMemory (sbrk : Sbrk M) (h : Heap M) (s : ℕ) : Except Stop (Heap M × ℕ) := do
  let last ← getLastBlock h
  match sbrk h.mem (increment s) with
  | none => pure (h, 0)
  | some (newBlock, mem) => do
    let mem ← store mem .size newBlock s
    let mem ← store mem .next newBlock 0
    let mem ← store mem .free newBlock 0
    let created := h.created ++ [newBlock]
    if last = 0 then pure (⟨mem, newBlock, created⟩, payload newBlock)
    else do
      let mem ← store mem .next last newBlock
      pure (⟨mem, h.blockHead, created⟩, payload newBlock)

/-- The payload of a block of the list, or of a new one. -/
def mymalloc (sbrk : Sbrk M) (h : Heap M) (s : ℕ) : Except Stop (Heap M × ℕ) := do
  let bestBlock ← findOptimalFreeBlock h s
  if bestBlock ≠ 0 then do
    let mem ← store h.mem .free bestBlock 0
    pure ({ h with mem := mem }, payload bestBlock)
  else extendMemory sbrk h s

/-- One activation of `myfree` on a pointer that is not NULL: it returns, or it
marks the block and calls `free`, that is `myfree`, on the same pointer. -/
def myfreeBody (ptr : ℕ) (h : Heap M) : Except Stop (Heap M ⊕ Heap M) := do
  let ptrBlock := headerOf ptr
  let free ← load h.mem .free ptrBlock
  if free = 1 then pure (.inr h)
  else do
    let mem ← store h.mem .free ptrBlock 1
    pure (.inl { h with mem := mem })

/-- The search for the block, from the head of the list. -/
def myfree (h : Heap M) (ptr : ℕ) : Except Stop (Heap M) :=
  if ptr = 0 then pure h else loop .diverges (myfreeBody ptr) addresses h

/-! ## What the calls do -/

/-- The heap after a block of `s` bytes has been made at `newBlock` and linked in
behind `last`. -/
def grown (h : Heap M) (last newBlock s : ℕ) (mem : M) : Heap M :=
  let mem := withHeader mem newBlock s 0 0
  if last = 0 then ⟨mem, newBlock, h.created ++ [newBlock]⟩
  else ⟨set mem .next last newBlock, h.blockHead, h.created ++ [newBlock]⟩

theorem grown_created (h : Heap M) (last newBlock s : ℕ) (mem : M) :
    (grown h last newBlock s mem).created = h.created ++ [newBlock] := by
  rw [grown]
  split <;> rfl

/-- The last element of a list that has one. -/
theorem getLastD_of_mem {l : List ℕ} {a : ℕ} (ha : a ∈ l) :
    l.getLastD 0 ∈ l ∧ l.getLast? = some (l.getLastD 0) := by
  rcases List.eq_nil_or_concat l with rfl | ⟨front, last, rfl⟩
  · exact absurd ha List.not_mem_nil
  · rw [List.concat_eq_append, List.getLastD_concat, List.getLast?_concat]
    exact ⟨List.mem_append_right _ (List.mem_singleton_self last), rfl⟩

section Calls

variable {h : Heap M} (hchain : BlockChain h.mem h.blockHead h.created)

include hchain

/-- The block that the search picks. -/
theorem findOptimalFreeBlock_eq (s : ℕ) :
    findOptimalFreeBlock h s = .ok (h.created.foldl (pick h.mem s) 0) :=
  hchain.searchList_eq s

/-- **A request that a free block fits** is served by it. -/
theorem mymalloc_reuse (sbrk : Sbrk M) {s b : ℕ}
    (hpick : h.created.foldl (pick h.mem s) 0 = b) (hb : b ≠ 0) :
    b ∈ h.created ∧ Fits h.mem s b ∧
      mymalloc sbrk h s = .ok ({ h with mem := set h.mem .free b 0 }, payload b) := by
  rcases foldl_pick_cases h.mem s h.created 0 with h₀ | ⟨hmem, hfits⟩
  · exact absurd (hpick.symm.trans h₀) hb
  · rw [hpick] at hmem hfits
    refine ⟨hmem, hfits, ?_⟩
    rw [mymalloc, findOptimalFreeBlock_eq hchain, ok_bind, hpick, if_pos hb,
      store_eq _ _ (hchain.header b hmem)]
    rfl

/-- The last block of the list: the youngest one. -/
theorem getLastBlock_eq : getLastBlock h = .ok (h.created.getLastD 0) := by
  rcases List.eq_nil_or_concat h.created with hnil | ⟨front, last, hsplit⟩
  · have hhead : h.blockHead = 0 := by
      have hvisits := hchain.visits
      rw [hnil] at hvisits
      exact hvisits
    rw [getLastBlock, hhead, lastOfList_null, hnil]
    rfl
  · rw [List.concat_eq_append] at hsplit
    rw [hsplit] at hchain
    rw [getLastBlock, hchain.lastOfList_eq, hsplit, List.getLastD_concat]

/-- **A request that no free block fits** fails with `sbrk`. -/
theorem mymalloc_fail {sbrk : Sbrk M} {s : ℕ} (hpick : h.created.foldl (pick h.mem s) 0 = 0)
    (hsbrk : sbrk h.mem (increment s) = none) : mymalloc sbrk h s = .ok (h, 0) := by
  rw [mymalloc, findOptimalFreeBlock_eq hchain, ok_bind, hpick, if_neg fun hc => hc rfl,
    extendMemory, getLastBlock_eq hchain, ok_bind, hsbrk]
  rfl

/-- **A request that no free block fits** gets a new block. -/
theorem mymalloc_grow {sbrk : Sbrk M} {s a : ℕ} {mem : M}
    (hpick : h.created.foldl (pick h.mem s) 0 = 0)
    (hsbrk : sbrk h.mem (increment s) = some (a, mem)) (ha : Header mem a)
    (hkept : ∀ b ∈ h.created, Header mem b) :
    mymalloc sbrk h s = .ok (grown h (h.created.getLastD 0) a s mem, payload a) := by
  have hlast : h.created.getLastD 0 ≠ 0 → h.created.getLastD 0 ∈ h.created := by
    intro hnull
    obtain ⟨b, hb⟩ := List.exists_mem_of_ne_nil h.created fun hnil => hnull (by rw [hnil]; rfl)
    exact (getLastD_of_mem hb).1
  rw [mymalloc, findOptimalFreeBlock_eq hchain, ok_bind, hpick, if_neg fun hc => hc rfl,
    extendMemory, getLastBlock_eq hchain, ok_bind, hsbrk]
  dsimp only
  rw [store_eq _ _ ha, ok_bind, store_eq _ _ (header_set _ _ _ ha), ok_bind,
    store_eq _ _ (header_set _ _ _ (header_set _ _ _ ha)), ok_bind, grown]
  by_cases hnull : h.created.getLastD 0 = 0
  · rw [if_pos hnull, if_pos hnull]
    rfl
  · rw [if_neg hnull, if_neg hnull, ← withHeader,
      store_eq _ _ (header_withHeader (hkept _ (hlast hnull)))]
    rfl

omit hchain in
/-- **Freeing a live block** marks it.  The call of `free` on the same pointer finds
the mark and returns. -/
theorem myfree_live {b : ℕ} (hb : b + blockSize < 2 ^ 64) (hheader : Header h.mem b)
    (hfree : get h.mem .free b = 0) :
    myfree h (b + blockSize) = .ok { h with mem := set h.mem .free b 1 } := by
  have hmark : get (set h.mem .free b 1) .free b = 1 := get_set_of_lt _ b (by decide)
  have hfirst : myfreeBody (b + blockSize) h =
      .ok (.inl { h with mem := set h.mem .free b 1 }) := by
    rw [myfreeBody, headerOf_add hb, load_eq _ hheader, ok_bind, hfree, if_neg (by decide),
      store_eq _ _ hheader]
    rfl
  have hsecond : myfreeBody (b + blockSize) { h with mem := set h.mem .free b 1 } =
      .ok (.inr { h with mem := set h.mem .free b 1 }) := by
    rw [myfreeBody, headerOf_add hb, load_eq _ (header_set _ _ _ hheader), ok_bind, hmark,
      if_pos rfl]
    rfl
  have hne : b + blockSize ≠ 0 := Nat.succ_ne_zero (b + 23)
  rw [myfree, if_neg hne]
  exact (loop_of_continue hfirst).trans (loop_of_leave hsecond)

omit hchain in
theorem myfree_null : myfree h 0 = .ok h := if_pos rfl

end Calls

end MemoryAllocator1
end SystemsProjects

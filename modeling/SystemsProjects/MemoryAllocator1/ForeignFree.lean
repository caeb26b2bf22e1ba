import SystemsProjects.MemoryAllocator1.HeapInvariant

/-!
# Freeing a pointer that is not ours

The comments in `myfree` announce a search for the pointer in the list of blocks: if it
is not found, return.  There is no such search.  Whatever stands in front of the pointer
is taken for a header, and its `free`, the four bytes that end four bytes in front of the
pointer, is set to 1.

`myfree_bytes` says this of every pointer but NULL and every memory.  So a pointer that
is the payload of no block is harmless only if these four bytes can be read and hold 1
already (`foreign_free_iff`).
-/

namespace SystemsProjects
namespace MemoryAllocator1

open Lib Allocator BlockStore

/-- The pointer is not NULL, and the payload of no block on the list. -/
def Foreign (p : Program) (ptr : ℕ) : Prop :=
  ptr ≠ 0 ∧ ptr < 2 ^ 64 ∧ ∀ b ∈ p.heap.created, ptr ≠ b + blockSize

/-- **Freeing it does nothing**: `myfree` returns, and the memory with all headers, the
list and its head are what they were. -/
def FreeHarmless (p : Program) (ptr : ℕ) : Prop := myfree p.heap ptr = .ok p.heap

/-- Where `myfree` looks for the `free` of the block. -/
def markOf (ptr : ℕ) : ℕ := headerOf ptr + Field.free.offset

/-- The four bytes that `myfree` looks at can be read, and hold 1. -/
def Marked (p : Program) (ptr : ℕ) : Prop :=
  p.heap.mem.Accessible (markOf ptr) 4 ∧ value p.bytes (markOf ptr) 4 = 1

/-! ## What `myfree` does -/

/-- Writing the number that is there changes nothing. -/
theorem put_value (bytes : ℕ → UInt8) (a n : ℕ) : put bytes a n (value bytes a n) = bytes := by
  funext x
  by_cases hx : a ≤ x ∧ x < a + n
  · rw [put_of_mem hx.1 hx.2, byte_of_value (by omega), Nat.add_sub_cancel' hx.1]
  · exact if_neg hx

/-- **What `myfree` does**, for any pointer but NULL: it writes 1 in front of it. -/
theorem myfree_bytes (h : Heap Memory) {ptr : ℕ} (hptr : ptr ≠ 0) :
    myfree h ptr =
      if h.mem.Accessible (markOf ptr) 4 then
        .ok { h with mem := { h.mem with bytes := put h.mem.bytes (markOf ptr) 4 1 } }
      else .error .segfault := by
  rw [myfree, if_neg hptr]
  by_cases hacc : h.mem.Accessible (markOf ptr) 4
  · have hload : ∀ bytes, load ({ h.mem with bytes := bytes } : Memory) .free (headerOf ptr) =
        .ok (value bytes (markOf ptr) 4) := fun bytes => if_pos hacc
    have hstore : store h.mem .free (headerOf ptr) 1 =
        .ok { h.mem with bytes := put h.mem.bytes (markOf ptr) 4 1 } := if_pos hacc
    rw [if_pos hacc]
    by_cases hone : value h.mem.bytes (markOf ptr) 4 = 1
    · have hleave : myfreeBody ptr h = .ok (.inr h) := by
        rw [myfreeBody, hload h.mem.bytes, ok_bind, if_pos hone]
        rfl
      have hsame : put h.mem.bytes (markOf ptr) 4 1 = h.mem.bytes := by
        rw [← hone, put_value]
      rw [hsame]
      exact loop_of_leave hleave
    · have hgo : myfreeBody ptr h = .ok (.inl
          { h with mem := { h.mem with bytes := put h.mem.bytes (markOf ptr) 4 1 } }) := by
        rw [myfreeBody, hload h.mem.bytes, ok_bind, if_neg hone, hstore]
        rfl
      -- the call of `free` at the end finds the mark that has just been written
      have hleave : myfreeBody ptr
          { h with mem := { h.mem with bytes := put h.mem.bytes (markOf ptr) 4 1 } } = .ok (.inr
          { h with mem := { h.mem with bytes := put h.mem.bytes (markOf ptr) 4 1 } }) := by
        rw [myfreeBody]
        dsimp only
        rw [hload, ok_bind, value_put_self, if_pos (by decide)]
        rfl
      exact (loop_of_continue hgo).trans (loop_of_leave hleave)
  · have hfault : myfreeBody ptr h = .error .segfault := by
      have hload : load h.mem .free (headerOf ptr) = .error .segfault := if_neg hacc
      rw [myfreeBody, hload, error_bind]
    rw [if_neg hacc]
    exact loop_of_error hfault

/-! ## The claim -/

/-- **Freeing a foreign pointer** is harmless exactly if the four bytes in front of it
that `myfree` takes for a mark can be read and are a mark.  The heap is any, with any
bytes in the payloads. -/
theorem foreign_free_iff (p : Program) {ptr : ℕ} (hptr : ptr ≠ 0) :
    FreeHarmless p ptr ↔ Marked p ptr := by
  rw [FreeHarmless, myfree_bytes p.heap hptr, Marked]
  by_cases hacc : p.heap.mem.Accessible (markOf ptr) 4
  · rw [if_pos hacc, and_iff_right hacc, Except.ok.injEq]
    constructor
    · intro hsame
      have hbytes : put p.bytes (markOf ptr) 4 1 = p.bytes :=
        congrArg (fun h : Heap Memory => h.mem.bytes) hsame
      rw [← hbytes, value_put_self]
      rfl
    · intro hone
      have hbytes : put p.bytes (markOf ptr) 4 1 = p.bytes := by
        rw [← hone, put_value]
      exact congrArg (fun bytes => ({ p.heap with mem := { p.heap.mem with bytes := bytes } } :
        Heap Memory)) hbytes
  · rw [if_neg hacc]
    refine iff_of_false (fun h => ?_) fun h => hacc h.1
    cases h

/-- A heap with one block of 48 bytes, all of them zero. -/
def zerosTrace : List (Call × ℕ) := [(.malloc 48 (some 4096), 4120)]

theorem run_zerosTrace : ∃ p, Run Step emptyProgram zerosTrace p ∧ Foreign p 4144 ∧
    p.heap.mem.Accessible (markOf 4144) 4 ∧ value p.bytes (markOf 4144) 4 = 0 := by
  refine ⟨_, Run.cons ⟨⟨by decide, fun a ha => ?_⟩, rfl⟩ (Run.nil _), ⟨by decide, by decide,
    fun b hb => ?_⟩, by decide, by decide⟩
  · rw [← Option.some.inj ha]
    exact ⟨by decide, by decide, fun r hr => absurd hr List.not_mem_nil⟩
  · rw [List.mem_singleton.mp hb]
    decide

/-- A pointer into the middle of a payload of zeros: the call writes a 1 there. -/
theorem not_free_harmless :
    ¬ ∀ (p₀ p : Program) (tr : List (Call × ℕ)) (ptr : ℕ), Initial p₀ → Run Step p₀ tr p →
      Foreign p ptr → FreeHarmless p ptr := by
  intro hall
  obtain ⟨p, hrun, hforeign, hacc, hzero⟩ := run_zerosTrace
  have hsame := hall emptyProgram p zerosTrace 4144 initial_emptyProgram hrun hforeign
  rw [FreeHarmless, myfree_bytes p.heap hforeign.1, if_pos hacc, Except.ok.injEq] at hsame
  have hbytes : put p.bytes (markOf 4144) 4 1 = p.bytes :=
    congrArg (fun h : Heap Memory => h.mem.bytes) hsame
  rw [← hbytes, value_put_self] at hzero
  cases hzero

/-- The same pointer, in front of which the program has written the mark. -/
theorem foreign_free_marked :
    FreeHarmless ⟨⟨⟨put (fun _ => 0) (markOf 4144) 4 1, [⟨4096, 72⟩]⟩, 4096, [4096]⟩, [(4120, 48)]⟩
      4144 :=
  (foreign_free_iff _ (by decide)).mpr ⟨by decide, by decide⟩

end MemoryAllocator1
end SystemsProjects

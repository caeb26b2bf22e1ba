import SystemsProjects.MemoryAllocator1.Mymalloc

/-!
# A new block behind the others

What growing the heap does to the fields of the blocks, in any memory: the blocks there are
keep their sizes and marks, the new block is taken and has the size that was asked for, and
the list runs through all of them.
-/

namespace SystemsProjects
namespace MemoryAllocator1

open Lib Allocator BlockStore

variable {M : Type} [BlockStore M] {h h' : Heap M} {mem : M} {a c s : ℕ}

/-- The headers of the blocks that `h` has stand apart from each other. -/
def HeadersApart (h : Heap M) : Prop :=
  ∀ b ∈ h.created, ∀ c ∈ h.created, b ≠ c → Apart M b c

/-- The heap after a block of `s` bytes has been made at `a` behind the other ones. -/
structure GrownBy (h : Heap M) (mem : M) (h' : Heap M) (a s : ℕ) : Prop where
  created : h'.created = h.created ++ [a]
  other : ∀ c ∈ h.created, ∀ f, f ≠ .next → get h'.mem f c = get h.mem f c
  size : get h'.mem .size a = s
  free : get h'.mem .free a = 0
  chain : Visits 0 (get h'.mem .next) h'.blockHead (h.created ++ [a])
  header : ∀ c, Header mem c → Header h'.mem c
  regions : regions h'.mem = regions mem

/-- **Growing the heap**, with `mem` the memory behind the call of `sbrk`. -/
theorem grownBy (hchain : Visits 0 (get h.mem .next) h.blockHead h.created)
    (hapart : HeadersApart h) (hnew : ∀ c ∈ h.created, Apart M c a)
    (hmem : ∀ c ∈ h.created, ∀ f, get mem f c = get h.mem f c) (hpos : a ≠ 0)
    (ha : a < 2 ^ 64) (hs : s < 2 ^ 64) :
    GrownBy h mem (grown h (h.created.getLastD 0) a s mem) a s := by
  have hnewHeader : ∀ c ∈ h.created, ∀ f, get (withHeader mem a s 0 0) f c = get h.mem f c :=
    fun c hc f => (get_withHeader (apart_symm (hnew c hc)) f).trans (hmem c hc f)
  have hsize : get (withHeader mem a s 0 0) .size a = s := size_withHeader hs
  have hnext : get (withHeader mem a s 0 0) .next a = 0 := next_withHeader (by decide)
  have hfree : get (withHeader mem a s 0 0) .free a = 0 := free_withHeader (by decide)
  rcases List.eq_nil_or_concat h.created with hnil | ⟨front, last, hsplit⟩
  · have hnull : h.created.getLastD 0 = 0 := by
      rw [hnil]
      rfl
    rw [hnull]
    unfold grown
    rw [if_pos rfl]
    refine ⟨rfl, fun c hc f _ => hnewHeader c hc f, hsize, hfree, ?_,
      fun c hc => header_withHeader hc, regions_withHeader⟩
    rw [hnil]
    exact ⟨rfl, hpos, hnext⟩
  · rw [List.concat_eq_append] at hsplit
    have hlast : last ∈ h.created := by
      rw [hsplit]
      exact List.mem_append_right _ (List.mem_singleton_self last)
    have hlink := hnew last hlast
    -- the link of the last block is the only field of the other blocks that changes
    have hlinked : ∀ c ∈ h.created, ∀ f, ¬ (c = last ∧ f = .next) →
        get (set (withHeader mem a s 0 0) .next last a) f c = get h.mem f c := by
      intro c hc f hcf
      by_cases hcl : c = last
      · rw [hcl, get_set_of_ne _ _ _ fun hf => hcf ⟨hcl, hf⟩, hnewHeader last hlast]
      · rw [get_set_of_apart _ _ _ _ (hapart last hlast c hc (Ne.symm hcl)), hnewHeader c hc]
    rw [show h.created.getLastD 0 = last by rw [hsplit, List.getLastD_concat]]
    unfold grown
    rw [if_neg (hchain.ne_null hlast)]
    refine ⟨rfl, fun c hc f hf => hlinked c hc f fun hcf => hf hcf.2, ?_, ?_, ?_,
      fun c hc => header_set _ _ _ (header_withHeader hc), ?_⟩
    · exact (get_set_of_apart _ _ _ _ hlink).trans hsize
    · exact (get_set_of_apart _ _ _ _ hlink).trans hfree
    · have hnodup := hchain.nodup
      rw [hsplit] at hchain hnodup ⊢
      refine hchain.snoc hpos (get_set_of_lt _ last ha) ?_ fun c hc => ?_
      · exact (get_set_of_apart _ _ _ _ hlink).trans hnext
      · refine hlinked c (by rw [hsplit]; exact List.mem_append_left _ hc) _ fun hcf => ?_
        exact (List.nodup_append.mp hnodup).2.2 c hc last (List.mem_singleton_self last) hcf.1
    · exact (regions_set _ _ _ _).trans regions_withHeader

end MemoryAllocator1
end SystemsProjects

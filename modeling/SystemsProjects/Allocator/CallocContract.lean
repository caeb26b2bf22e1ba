import SystemsProjects.AdvancedMemory.Mycalloc
import SystemsProjects.MemoryAllocator1.Mycalloc

/-!
# The contract of `mycalloc`

Both allocators have a `mycalloc`, and both promise the same: NULL and no byte written, or a
zeroed block of `nmemb * s` bytes that nobody else has.  Both break the promise in two ways.
The product is computed modulo `2 ^ 64`, and so is the size of the block.  And the result of
`mymalloc` goes to `memset` before anybody tests it, so a request that the system refuses
ends with a fault.  `not_calloc_contract` has a program for each.

`calloc_contract` says when the promise is kept: in every heap that a program reaches, whatever
its blocks and their contents are, if the steps of the program and the call meet the
conditions of the two modules on `mycalloc`.
-/

namespace SystemsProjects
namespace Allocator

open Lib BlockStore

/-- **`mycalloc` keeps its promise in both allocators**, for all arguments, after every run
whose steps meet the condition, in every call that does. -/
theorem calloc_contract (nmemb s : ℕ) :
    (∀ (p₀ p : MemoryAllocator1.Program) (tr : List (MemoryAllocator1.Request × ℕ)),
      MemoryAllocator1.Initial p₀ →
      Run (Guarded (fun p r => r.Works p) MemoryAllocator1.Request.Step) p₀ tr p →
      ∀ answer : Option ℕ,
        (MemoryAllocator1.Request.calloc nmemb s answer).Allowed p →
        (MemoryAllocator1.Request.calloc nmemb s answer).Works p →
        ∃ p' q, (MemoryAllocator1.Request.calloc nmemb s answer).perform p = .ok (p', q) ∧
          CallocPromise p.live p.heap.mem p'.heap.mem q (nmemb * s)) ∧
    (∀ (cpus : ℕ) (p₀ p : AdvancedMemory.Program)
      (tr : List (AdvancedMemory.Program.Action × ℕ)), p₀.Initial →
      Run (Guarded (fun p c => c.Works cpus p) (AdvancedMemory.Program.Action.Step cpus)) p₀ tr p →
      ∀ (cpu : ℕ) (env : AdvancedMemory.Environment),
        (AdvancedMemory.Program.Action.call (.calloc nmemb s cpu env)).Allowed cpus p →
        (AdvancedMemory.Program.Action.call (.calloc nmemb s cpu env)).Works cpus p →
        ∃ p' q, (AdvancedMemory.Program.Action.call (.calloc nmemb s cpu env)).perform cpus p =
            .ok (p', q) ∧
          CallocPromise p.live p.heap.mem p'.heap.mem q (nmemb * s)) := by
  constructor
  · intro p₀ p tr hinit hrun answer hallowed hworks
    have o := MemoryAllocator1.ordered_of_requests hinit hrun
    obtain ⟨p', q, hperform, -, hpromise⟩ := o.calloc hallowed hworks
    exact ⟨p', q, hperform, hpromise⟩
  · intro cpus p₀ p tr hinit hrun cpu env hallowed hworks
    have i := AdvancedMemory.Program.Tidy.of_run hinit hrun
    obtain ⟨p', q, hperform, -, hpromise⟩ := i.calloc hallowed hworks
    exact ⟨p', q, hperform, hpromise⟩

/-! ## A block that is used again -/

/-- A block of the first allocator that has been written to and freed. -/
theorem run_dirty :
    ∃ p, Run (Guarded (fun p r => r.Works p) MemoryAllocator1.Request.Step)
      MemoryAllocator1.emptyProgram
      [(.call (.malloc 8 (some 4096)), 4120), (.call (.write 4121 7), 0),
        (.call (.free 4120), 0)] p ∧
      p.bytes 4121 = 7 ∧ p.heap.created = [4096] ∧ Fits p.heap.mem 8 4096 := by
  refine ⟨_, Run.cons ⟨?_, ?_, rfl⟩ (Run.cons ⟨trivial, ?_, rfl⟩ (Run.cons ⟨trivial, ?_, rfl⟩
    (Run.nil _))), by decide, rfl, by decide⟩
  · exact Or.inr (Or.inr (by decide))
  · refine ⟨by decide, fun a ha _ => ?_⟩
    rw [← Option.some.inj ha]
    decide
  · exact ⟨4096, by decide, by decide, by decide⟩
  · exact Or.inr (by decide)

/-- A block of the second allocator that has been written to and freed. -/
theorem run_dirty_second :
    ∃ p, Run (Guarded (fun p c => c.Works 1 p) (AdvancedMemory.Program.Action.Step 1))
      ⟨AdvancedMemory.emptyHeap, []⟩
      [(.call (.malloc 8 (AdvancedMemory.pinned 0 (some 4096) (some 8192))), 8216),
        (.write 8217 7, 0), (.call (.free 0 8216), 0)] p ∧
      p.heap.mem.bytes 8217 = 7 ∧ p.heap.blockHead = .array [8192] ∧
      regions p.heap.mem = [⟨8192, 32⟩, ⟨4096, 8⟩] ∧
      AdvancedMemory.Found p.heap 0 8 8192 ∧ Fits p.heap.mem 8 8192 ∧
      get p.heap.mem .size 8192 = 8 := by
  refine ⟨_, Run.cons ⟨⟨fun b hb hne => ?_, fun a ha _ => ?_⟩, ?_, rfl⟩
    (Run.cons ⟨trivial, ?_, rfl⟩ (Run.cons ⟨?_, ?_, rfl⟩ (Run.nil _))), by decide, rfl, rfl,
    ⟨8192, rfl, rfl⟩, by decide, by decide⟩
  · exact absurd (AdvancedMemory.Found.unique hb ⟨0, rfl, rfl⟩) hne
  · rw [← Option.some.inj ha]
    decide
  · refine ⟨by decide, by decide, fun x _ hx => ?_, fun a ha => ?_⟩
    · rw [← Option.some.inj hx]
      decide
    · rw [← Option.some.inj ha]
      decide
  · exact ⟨(8216, 8), by decide, by decide, by decide⟩
  · exact fun hfree => absurd (Except.ok.inj hfree.2) (by decide)
  · exact ⟨by decide, Or.inr ⟨8192, by decide, rfl⟩⟩

/-- The freed blocks are handed out again, and they are zero. -/
theorem calloc_contract_reused :
    (∃ p p' q, p.bytes 4121 = 7 ∧
      (MemoryAllocator1.Request.calloc 2 4 none).perform p = .ok (p', q) ∧
      CallocPromise p.live p.heap.mem p'.heap.mem q (2 * 4)) ∧
    (∃ p p' q, p.heap.mem.bytes 8217 = 7 ∧
      (AdvancedMemory.Program.Action.call
        (.calloc 2 4 0 (AdvancedMemory.pinned 0 none none))).perform 1 p = .ok (p', q) ∧
      CallocPromise p.live p.heap.mem p'.heap.mem q (2 * 4)) := by
  constructor
  · obtain ⟨p, hrun, hbyte, hcreated, hfits⟩ := run_dirty
    obtain ⟨p', q, hperform, hpromise⟩ := (calloc_contract 2 4).1 _ p _
      MemoryAllocator1.initial_emptyProgram hrun none
      ⟨by decide, by decide, fun a ha => by cases ha⟩
      (Or.inr (Or.inr (Or.inl ⟨by decide, Or.inl ⟨4096, by rw [hcreated]; decide, hfits⟩⟩)))
    exact ⟨p, p', q, hbyte, hperform, hpromise⟩
  · obtain ⟨p, hrun, hbyte, hheads, hregions, hfound, hfits, hsize⟩ := run_dirty_second
    have hset : AdvancedMemory.initHeap p.heap 1 none = p.heap :=
      if_neg (by rw [hheads]; decide)
    have hfitsIn : ∀ r ∈ [(⟨8192, 32⟩ : Extent), ⟨4096, 8⟩], AdvancedMemory.Holds r 8192 →
        AdvancedMemory.FitsIn r 8192 8 8 := by decide
    obtain ⟨p', q, hperform, hpromise⟩ := (calloc_contract 2 4).2 1 _ p _
      ⟨AdvancedMemory.initial_emptyHeap, rfl⟩ hrun 0 (AdvancedMemory.pinned 0 none none)
      (by
        refine ⟨by decide, by decide, by decide, fun x hnull => ?_, fun a ha => by cases ha⟩
        rw [hheads] at hnull
        cases hnull)
      (by
        refine Or.inr (Or.inr ?_)
        show AdvancedMemory.Program.CallocWorks (AdvancedMemory.initHeap p.heap 1 none) _ 2 4
        rw [hset]
        refine ⟨by rw [hheads]; decide, ⟨fun b hb hne r hr hin => ?_, fun a ha => by cases ha⟩,
          Or.inl ⟨by decide, Or.inl fun hnone => ?_⟩⟩
        · obtain rfl : b = 8192 := AdvancedMemory.Found.unique hb hfound
          rw [hregions] at hr
          rw [hsize]
          exact hfitsIn r hr hin
        · refine hnone 8192 ⟨8192, ?_, Reaches.here (by decide)⟩ hfits
          rw [AdvancedMemory.Heap.head, hheads]
          rfl)
    exact ⟨p, p', q, hbyte, hperform, hpromise⟩

/-! ## Where the promise is broken -/

/-- **NULL is cleared, and the product wraps around.**  In the first allocator `sbrk` fails and
`memset` is called with NULL.  In the second one a request for `2 ^ 63 + 1` objects of two bytes
is answered with a block of two bytes. -/
theorem not_calloc_contract :
    (MemoryAllocator1.Initial MemoryAllocator1.emptyProgram ∧
      (MemoryAllocator1.Request.calloc 1 8 none).Allowed MemoryAllocator1.emptyProgram ∧
      (MemoryAllocator1.Request.calloc 1 8 none).perform MemoryAllocator1.emptyProgram =
        .error .segfault) ∧
    (AdvancedMemory.Program.Initial ⟨AdvancedMemory.emptyHeap, []⟩ ∧
      (AdvancedMemory.Program.Action.call (.calloc (2 ^ 63 + 1) 2 0
        (AdvancedMemory.pinned 0 (some 4096) (some 8192)))).Allowed 1
          ⟨AdvancedMemory.emptyHeap, []⟩ ∧
      ∃ p', (AdvancedMemory.Program.Action.call (.calloc (2 ^ 63 + 1) 2 0
          (AdvancedMemory.pinned 0 (some 4096) (some 8192)))).perform 1
            ⟨AdvancedMemory.emptyHeap, []⟩ = .ok (p', 8216) ∧
        get p'.heap.mem .size 8192 = 2 ∧
        ¬ CallocPromise [] AdvancedMemory.emptyHeap.mem p'.heap.mem 8216 ((2 ^ 63 + 1) * 2)) := by
  refine ⟨⟨MemoryAllocator1.initial_emptyProgram, ⟨by decide, by decide, fun a ha => by cases ha⟩,
    rfl⟩, ⟨AdvancedMemory.initial_emptyHeap, rfl⟩, ?_, _, rfl, by decide, ?_⟩
  · refine ⟨by decide, by decide, by decide, fun x _ hx => ?_, fun a ha => ?_⟩
    · rw [← Option.some.inj hx]
      decide
    · rw [← Option.some.inj ha]
      decide
  · rintro (⟨hnull, -⟩ | ⟨-, hzeroed⟩)
    · cases hnull
    · exact absurd hzeroed.large (by decide)

end Allocator
end SystemsProjects

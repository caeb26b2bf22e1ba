import SystemsProjects.AdvancedMemory.Migration
import SystemsProjects.MemoryAllocator1.Mymalloc

/-!
# What the search for a free block promises

Both allocators search a list of blocks in the same way, the first one the list of all its
blocks, the second one the list of the processor that the thread runs on.  On a list that ends,
the search returns NULL if and only if no free block is large enough, and otherwise the first one
of the smallest blocks that are (`Optimal`).  It does not matter which blocks the list has and in
what order: the memory is any `BlockStore`.

So `mymalloc` asks the operating system for a block exactly when no block of the list fits.  That
it asks is said by what it does: the result depends on the answer (`Asks`).  In the second
allocator the thread may be moved to another processor behind the search, and then the end of
another list is looked for, so all lists have to end.
-/

namespace SystemsProjects
namespace Allocator

open Lib BlockStore

variable {M : Type} [BlockStore M] {m : M} {s list : ℕ} {bs : List ℕ}

/-- **What a search promises**: NULL if and only if no block fits, and otherwise a best fit. -/
def Optimal (m : M) (s : ℕ) (bs : List ℕ) (r : ℕ) : Prop :=
  (r = 0 ↔ ∀ b ∈ bs, ¬ Fits m s b) ∧ (r ≠ 0 → BestFit m s bs r)

namespace BlockChain

theorem ne_zero (c : BlockChain m list bs) : ∀ b ∈ bs, b ≠ 0 := fun _ hb =>
  c.visits.ne_null hb

theorem optimal (c : BlockChain m list bs) (s : ℕ) :
    ∃ r, searchList m s list = .ok r ∧ Optimal m s bs r := by
  refine ⟨_, c.searchList_eq s, foldl_pick_eq_zero_iff m s c.ne_zero, fun hr => ?_⟩
  exact (foldl_pick_spec m s bs c.ne_zero).resolve_left fun hnull => hr hnull.1

/-- The walk to the end comes to an end. -/
theorem lastOfList_returns (c : BlockChain m list bs) : ∃ last, lastOfList m list = .ok last := by
  rcases List.eq_nil_or_concat bs with hnil | ⟨front, last, hsplit⟩
  · rw [c.visits.eq_null_iff.mpr hnil]
    exact ⟨0, lastOfList_null m⟩
  · rw [List.concat_eq_append] at hsplit
    rw [hsplit] at c
    exact ⟨last, c.lastOfList_eq⟩

end BlockChain

/-- A block at this address has a payload that is not NULL. -/
theorem payload_ne_zero : payload 4096 ≠ 0 := by decide

end Allocator

/-! ## The first allocator -/

namespace MemoryAllocator1

open Lib Allocator BlockStore

variable {M : Type} [BlockStore M] {h h' : Heap M} {s q : ℕ} {bs : List ℕ}

/-- **The call asks for memory**: what it does depends on what `sbrk` answers. -/
def Asks (h : Heap M) (s : ℕ) : Prop :=
  ∃ sbrk sbrk' : Sbrk M, mymalloc sbrk h s ≠ mymalloc sbrk' h s

theorem extendMemory_refused {last : ℕ} (hlast : getLastBlock h = .ok last) {sbrk : Sbrk M}
    (hsbrk : sbrk h.mem (increment s) = none) : extendMemory sbrk h s = .ok (h, 0) := by
  rw [extendMemory, hlast, ok_bind, hsbrk]
  rfl

/-- A new block is handed out. -/
theorem extendMemory_answered {sbrk : Sbrk M} {a : ℕ} {mem : M}
    (hsbrk : sbrk h.mem (increment s) = some (a, mem))
    (hcall : extendMemory sbrk h s = .ok (h', q)) : q = payload a := by
  rw [extendMemory] at hcall
  obtain ⟨last, -, hcall⟩ := bind_eq_ok.mp hcall
  rw [hsbrk] at hcall
  obtain ⟨mem₁, -, hcall⟩ := bind_eq_ok.mp hcall
  obtain ⟨mem₂, -, hcall⟩ := bind_eq_ok.mp hcall
  obtain ⟨mem₃, -, hcall⟩ := bind_eq_ok.mp hcall
  dsimp only at hcall
  split at hcall
  · cases hcall
    rfl
  · obtain ⟨mem₄, -, hcall⟩ := bind_eq_ok.mp hcall
    cases hcall
    rfl

/-- **`mymalloc` asks `sbrk` exactly when nothing fits.** -/
theorem asks_iff (c : BlockChain h.mem h.blockHead bs) (s : ℕ) :
    Asks h s ↔ ∀ b ∈ bs, ¬ Fits h.mem s b := by
  obtain ⟨r, hsearch, hnull, hbest⟩ := c.optimal s
  have hfind : findOptimalFreeBlock h s = .ok r := hsearch
  rw [← hnull]
  constructor
  · rintro ⟨sbrk, sbrk', hne⟩
    by_contra hr
    refine hne ?_
    rw [mymalloc, mymalloc, hfind, ok_bind, ok_bind, if_pos hr, if_pos hr]
  · rintro rfl
    have hcall : ∀ sbrk : Sbrk M, mymalloc sbrk h s = extendMemory sbrk h s := fun sbrk => by
      rw [mymalloc, hfind, ok_bind]
      exact if_neg (not_not.mpr rfl)
    obtain ⟨last, hlast⟩ := c.lastOfList_returns
    obtain ⟨sbrk, hsbrk⟩ : ∃ sbrk : Sbrk M, sbrk h.mem (increment s) = some (4096, h.mem) :=
      ⟨fun m _ => some (4096, m), rfl⟩
    have hrefused : extendMemory (fun _ _ => none) h s = .ok (h, 0) :=
      extendMemory_refused hlast rfl
    refine ⟨fun _ _ => none, sbrk, fun heq => ?_⟩
    rw [hcall, hcall, hrefused] at heq
    have hq : 0 = payload 4096 := extendMemory_answered hsbrk heq.symm
    exact payload_ne_zero hq.symm

end MemoryAllocator1

/-! ## The second allocator -/

namespace AdvancedMemory

open Lib Allocator BlockStore

variable {M : Type} [BlockStore M] {h h' : Heap M} {cpu cpus s q a : ℕ} {bs : List ℕ}
  {lists : ℕ → List ℕ} {env : Environment}

/-- The list of `cpu` is there and ends, and its mutex is free. -/
structure AtRest (h : Heap M) (cpu : ℕ) (bs : List ℕ) : Prop where
  unlocked : h.locks cpu = false
  chain : ∃ list, h.head cpu = .ok list ∧ BlockChain h.mem list bs

/-- **The call asks for a block**: what it does depends on what `sbrk` or `mmap` answers. -/
def Asks (h : Heap M) (cpus : ℕ) (env : Environment) (s : ℕ) : Prop :=
  ∃ answer answer' : Option ℕ,
    mymalloc h cpus { env with answer := answer } s ≠
      mymalloc h cpus { env with answer := answer' } s

namespace AtRest

theorem optimal (r : AtRest h cpu bs) (s : ℕ) :
    ∃ b, findOptimalFreeBlock h cpu s = .ok (h, b) ∧ Optimal h.mem s bs b := by
  obtain ⟨list, hhead, hchain⟩ := r.chain
  obtain ⟨b, hsearch, hoptimal⟩ := hchain.optimal s
  refine ⟨b, ?_, hoptimal⟩
  rw [findOptimalFreeBlock_eq, if_neg (by rw [r.unlocked]; decide), hhead, ok_bind, hsearch,
    ok_bind]
  rfl

theorem getLastBlock_returns (r : AtRest h cpu bs) : ∃ last, getLastBlock h cpu = .ok last := by
  obtain ⟨list, hhead, hchain⟩ := r.chain
  obtain ⟨last, hlast⟩ := hchain.lastOfList_returns
  refine ⟨last, ?_⟩
  rw [getLastBlock, hhead, ok_bind]
  exact hlast

end AtRest

theorem extendMemory_refused (hlock : h.locks env.extend = false) {last : ℕ}
    (hlast : getLastBlock h env.last = .ok last) (hanswer : env.answer = none) :
    extendMemory h env s = .ok (h, 0) := by
  have hsection : extendSection h env.extend env.last s none = .ok (h, none) := by
    rw [extendSection_eq fun a (ha : none = some a) => absurd ha (Option.some_ne_none a).symm,
      hlast, ok_bind, if_neg (by rw [hlock]; decide)]
    rfl
  rw [extendMemory, hanswer, hsection, ok_bind]
  rfl

/-- A section that gets an answer makes a block there. -/
theorem extendSection_answered {lastCpu : ℕ} {new : Option (ℕ × Bool)}
    (hcall : extendSection h cpu lastCpu s (some a) = .ok (h', new)) :
    ∃ toSplit, new = some (a, toSplit) := by
  rw [extendSection] at hcall
  obtain ⟨h₁, -, hcall⟩ := bind_eq_ok.mp hcall
  obtain ⟨last, -, hcall⟩ := bind_eq_ok.mp hcall
  obtain ⟨mem₁, -, hcall⟩ := bind_eq_ok.mp hcall
  obtain ⟨mem₂, -, hcall⟩ := bind_eq_ok.mp hcall
  obtain ⟨mem₃, -, hcall⟩ := bind_eq_ok.mp hcall
  obtain ⟨h₂, -, hcall⟩ := bind_eq_ok.mp hcall
  obtain ⟨newSize, -, hcall⟩ := bind_eq_ok.mp hcall
  cases hcall
  exact ⟨_, rfl⟩

theorem extendMemory_answered (hanswer : env.answer = some a)
    (hcall : extendMemory h env s = .ok (h', q)) : q = payload a := by
  rcases extendMemory_eq_ok hcall with ⟨hsection, -⟩ | ⟨h₁, a', toSplit, hsection, hq, -⟩
  · rw [hanswer] at hsection
    obtain ⟨toSplit, hnew⟩ := extendSection_answered hsection
    cases hnew
  · rw [hanswer] at hsection
    obtain ⟨toSplit', hnew⟩ := extendSection_answered hsection
    cases hnew
    exact hq

/-- **`mymalloc` asks for a block exactly when nothing in the list of the processor fits.** -/
theorem asks_iff (hlists : ∀ cpu < cpus, AtRest (initHeap h cpus env.heads) cpu (lists cpu))
    (hcpus : env.find < cpus ∧ env.extend < cpus ∧ env.last < cpus) (s : ℕ) :
    Asks h cpus env s ↔
      ∀ b ∈ lists env.find, ¬ Fits (initHeap h cpus env.heads).mem s b := by
  obtain ⟨b, hfind, hnull, hbest⟩ := (hlists _ hcpus.1).optimal s
  rw [← hnull]
  constructor
  · rintro ⟨answer, answer', hne⟩
    by_contra hb
    obtain ⟨list, -, hchain⟩ := (hlists _ hcpus.1).chain
    have hheader := hchain.header b (hbest hb).mem
    have hcall : ∀ answer : Option ℕ, mymalloc h cpus { env with answer := answer } s = _ :=
      fun _ => mymalloc_of_found hfind hb hheader
    exact hne ((hcall answer).trans (hcall answer').symm)
  · rintro rfl
    obtain ⟨last, hlast⟩ := (hlists _ hcpus.2.2).getLastBlock_returns
    have hcall : ∀ answer : Option ℕ, mymalloc h cpus { env with answer := answer } s =
        extendMemory (initHeap h cpus env.heads) { env with answer := answer } s :=
      fun _ => mymalloc_of_none hfind
    have hrefused : extendMemory (initHeap h cpus env.heads) { env with answer := none } s =
        .ok (initHeap h cpus env.heads, 0) :=
      extendMemory_refused (hlists _ hcpus.2.1).unlocked hlast rfl
    refine ⟨none, some 4096, fun heq => ?_⟩
    rw [hcall, hcall, hrefused] at heq
    have hq : 0 = payload 4096 := extendMemory_answered rfl heq.symm
    exact payload_ne_zero hq.symm

end AdvancedMemory

/-! ## Both allocators -/

namespace Allocator

open Lib BlockStore

/-- **The search for a free block**, in both allocators and on every list that ends: NULL if and
only if no free block is large enough, and otherwise the first one of the smallest blocks that
are.  So `mymalloc` asks for a new block exactly when no block of the list fits, which is the list
of the processor that the search runs on in the second allocator, the first call included. -/
theorem optimal_blocks {M : Type} [BlockStore M] (s : ℕ) :
    (∀ (h : MemoryAllocator1.Heap M) (bs : List ℕ), BlockChain h.mem h.blockHead bs →
      (∃ r, MemoryAllocator1.findOptimalFreeBlock h s = .ok r ∧ Optimal h.mem s bs r) ∧
        (MemoryAllocator1.Asks h s ↔ ∀ b ∈ bs, ¬ Fits h.mem s b)) ∧
    (∀ (h : AdvancedMemory.Heap M) (cpu : ℕ) (bs : List ℕ), AdvancedMemory.AtRest h cpu bs →
      ∃ r, AdvancedMemory.findOptimalFreeBlock h cpu s = .ok (h, r) ∧ Optimal h.mem s bs r) ∧
    (∀ (h : AdvancedMemory.Heap M) (cpus : ℕ) (env : AdvancedMemory.Environment)
      (lists : ℕ → List ℕ),
      (∀ cpu < cpus,
        AdvancedMemory.AtRest (AdvancedMemory.initHeap h cpus env.heads) cpu (lists cpu)) →
      env.find < cpus ∧ env.extend < cpus ∧ env.last < cpus →
      (AdvancedMemory.Asks h cpus env s ↔
        ∀ b ∈ lists env.find, ¬ Fits (AdvancedMemory.initHeap h cpus env.heads).mem s b)) :=
  ⟨fun _ _ c => ⟨c.optimal s, MemoryAllocator1.asks_iff c s⟩, fun _ _ _ r => r.optimal s,
    fun _ _ _ _ hlists hcpus => AdvancedMemory.asks_iff hlists hcpus s⟩

/-! ## Three free blocks -/

/-- Blocks of 40, 16 and 16 bytes, all of them free. -/
def threeBlocks : Memory :=
  let m : Memory := ⟨fun _ => 0, [⟨4096, 144⟩]⟩
  withHeader (withHeader (withHeader m 4096 40 4160 1) 4160 16 4200 1) 4200 16 0 1

/-- The three blocks are the only list of the second allocator. -/
def threeHeap : AdvancedMemory.Heap Memory :=
  ⟨threeBlocks, .array [4096], fun _ => false, [4096, 4160, 4200]⟩

theorem blockChain_threeBlocks : BlockChain threeBlocks 4096 [4096, 4160, 4200] where
  visits := by
    have hend : get threeBlocks .next 4200 = 0 := by decide
    exact ⟨rfl, by decide, by decide, by decide, by decide, by decide, hend⟩
  header b hb := by
    have hin : ∀ b ∈ [4096, 4160, 4200], (⟨b, blockSize⟩ : Extent).Within ⟨4096, 144⟩ := by
      decide
    exact header_of_within (r := ⟨4096, 144⟩) List.mem_cons_self (hin b hb)
  lt := by decide

theorem atRest_threeHeap : AdvancedMemory.AtRest threeHeap 0 [4096, 4160, 4200] :=
  ⟨rfl, 4096, rfl, blockChain_threeBlocks⟩

/-- A request of ten bytes is served from the list, by a best fit. -/
theorem optimal_blocks_three :
    (∃ r, MemoryAllocator1.findOptimalFreeBlock
        ⟨threeBlocks, 4096, [4096, 4160, 4200]⟩ 10 = .ok r ∧
      BestFit threeBlocks 10 [4096, 4160, 4200] r) ∧
    (∃ r, AdvancedMemory.findOptimalFreeBlock threeHeap 0 10 = .ok (threeHeap, r) ∧
      BestFit threeBlocks 10 [4096, 4160, 4200] r) ∧
    ¬ AdvancedMemory.Asks threeHeap 1 ⟨0, 0, 0, 0, none, none⟩ 10 := by
  have hfits : ¬ ∀ b ∈ [4096, 4160, 4200], ¬ Fits threeBlocks 10 b := by decide
  obtain ⟨hfirst, hsearch, hasks⟩ := optimal_blocks (M := Memory) 10
  obtain ⟨⟨r, hr, hnull, hbest⟩, -⟩ := hfirst ⟨threeBlocks, 4096, [4096, 4160, 4200]⟩ _
    blockChain_threeBlocks
  obtain ⟨r', hr', hnull', hbest'⟩ := hsearch _ _ _ atRest_threeHeap
  have hset : AdvancedMemory.initHeap threeHeap 1 none = threeHeap := if_neg (by decide)
  have hlists : ∀ cpu < 1, AdvancedMemory.AtRest (AdvancedMemory.initHeap threeHeap 1 none) cpu
      [4096, 4160, 4200] := by
    intro cpu hcpu
    rw [hset, Nat.lt_one_iff.mp hcpu]
    exact atRest_threeHeap
  have hiff := hasks threeHeap 1 ⟨0, 0, 0, 0, none, none⟩ (fun _ => [4096, 4160, 4200]) hlists
    ⟨Nat.one_pos, Nat.one_pos, Nat.one_pos⟩
  rw [hset] at hiff
  exact ⟨⟨r, hr, hbest fun h => hfits (hnull.mp h)⟩, ⟨r', hr', hbest' fun h => hfits (hnull'.mp h)⟩,
    fun h => hfits (hiff.mp h)⟩

end Allocator
end SystemsProjects

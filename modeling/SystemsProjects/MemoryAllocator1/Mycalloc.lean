import SystemsProjects.MemoryAllocator1.HeapInvariant
import SystemsProjects.Allocator.ZeroedBlocks

/-!
# `mycalloc` of the first allocator

`mycalloc` multiplies its arguments, calls `mymalloc` and clears what it gets.  The product
is a `size_t`, so it is reduced modulo `2 ^ 64`, and the pointer is not tested.  A block for
the reduced product is too small, and NULL goes to `memset`.

`Request.Works` is the condition on the state before a call under which neither happens.
There is one curious case in it: if the product is a multiple of `2 ^ 64`, there is no free block
and `sbrk` fails, then `memset` is told to clear nothing, and NULL is returned as it should be.
`Ordered.calloc` says that the promise is kept under the condition, and `ordered_of_requests`
that the heap is in order after every run of requests that meet it.
-/

namespace SystemsProjects
namespace MemoryAllocator1

open Lib Allocator BlockStore

/-- `malloc` is `mymalloc` here, by the macro of `malloc.h`. -/
def mycalloc (sbrk : Sbrk Memory) (h : Heap Memory) (nmemb s : ℕ) :
    Except Stop (Heap Memory × ℕ) :=
  if nmemb = 0 ∨ s = 0 then pure (h, 0)
  else do
    let (h, p) ← mymalloc sbrk h (nmemb * s % 2 ^ 64)
    -- `memset(p, 0, nmemb*s)`
    let mem ← h.mem.store .segfault p (nmemb * s % 2 ^ 64) 0
    pure ({ h with mem := mem }, p)

/-! ## Requests -/

/-- A step of a program that calls `mycalloc`, too. -/
inductive Request where
  | call (c : Call)
  | calloc (nmemb s : ℕ) (answer : Option ℕ)
  deriving DecidableEq

/-- `sbrk` fails or answers with the start of a new region, for a request that its argument
can express. -/
def Answers (p : Program) (s : ℕ) (answer : Option ℕ) : Prop :=
  ∀ a, answer = some a → s + blockSize ≤ 2 ^ 63 - 1 → Fresh p.heap.mem ⟨a, s + blockSize⟩

/-- What the program may do, and what the operating system may answer.  A request may have
any size. -/
def Request.Allowed (p : Program) : Request → Prop
  | .call (.malloc s answer) => s < 2 ^ 64 ∧ Answers p s answer
  | .call (.free q) => (Call.free q).Allowed p
  | .call (.write x v) => (Call.write x v).Allowed p
  | .calloc nmemb s answer =>
      nmemb < 2 ^ 64 ∧ s < 2 ^ 64 ∧ Answers p (nmemb * s % 2 ^ 64) answer

/-- The step, with the pointer that is returned. -/
def Request.perform (p : Program) : Request → Except Stop (Program × ℕ)
  | .call c => MemoryAllocator1.perform p c
  | .calloc nmemb s answer => do
      let (h, q) ← mycalloc (freshBytes answer) p.heap nmemb s
      pure (⟨h, if q = 0 then p.live else (q, nmemb * s % 2 ^ 64) :: p.live⟩, q)

/-- A request that is allowed, and returns. -/
def Request.Step (p : Program) (r : Request) (out : ℕ) (p' : Program) : Prop :=
  r.Allowed p ∧ r.perform p = .ok (p', out)

/-! ## The condition -/

/-- A free block is large enough. -/
def HasFit (p : Program) (s : ℕ) : Prop := ∃ b ∈ p.heap.created, Fits p.heap.mem s b

/-- **The condition.**  `sbrk` is not asked for a size beyond its argument's range, and
`mycalloc` gets a block for a product that does not wrap around, or has nothing to clear. -/
def Request.Works (p : Program) : Request → Prop
  | .call (.malloc s answer) => HasFit p s ∨ answer = none ∨ s + blockSize ≤ 2 ^ 63 - 1
  | .call (.free _) => True
  | .call (.write _ _) => True
  | .calloc nmemb s answer => nmemb = 0 ∨ s = 0 ∨
      (nmemb * s < 2 ^ 64 ∧ (HasFit p (nmemb * s) ∨
        (answer ≠ none ∧ nmemb * s + blockSize ≤ 2 ^ 63 - 1))) ∨
      (nmemb * s % 2 ^ 64 = 0 ∧ ¬ HasFit p 0 ∧ answer = none)

/-! ## One call -/

variable {p p' : Program} {b c nmemb s out : ℕ} {answer : Option ℕ}

/-- What a call of `mymalloc` has returned. -/
theorem perform_malloc_eq_ok (h : perform p (.malloc s answer) = .ok (p', out)) :
    mymalloc (freshBytes answer) p.heap s = .ok (p'.heap, out) ∧
      p'.live = if out = 0 then p.live else (out, s) :: p.live := by
  obtain ⟨⟨h₁, q⟩, hcall, hp'⟩ := bind_eq_ok.mp h
  dsimp only at hp'
  rw [pure_eq_ok, Except.ok.injEq, Prod.mk.injEq] at hp'
  obtain ⟨rfl, rfl⟩ := hp'
  exact ⟨hcall, rfl⟩

/-- `mymalloc` keeps the size of every block but its own. -/
theorem StepFrame.size_eq (f : StepFrame p (.malloc s answer) out p')
    (hc : c ∈ p.heap.created) (hne : out ≠ c + blockSize) :
    get p'.heap.mem .size c = get p.heap.mem .size c := by
  refine value_congr fun x hx₀ hx₁ => ?_
  simp only [Field.offset, Field.width] at hx₀ hx₁
  by_contra hx
  have hwidth : blockSize = 24 := rfl
  rcases f.headers c hc x (by omega) (by omega) hx with ⟨-, hout | ⟨-, hlink, -⟩⟩ | hfree
  · exact hne hout
  · omega
  · cases hfree

namespace Ordered

/-- The search fails if no free block is large enough. -/
theorem pick_eq_zero_iff (o : Ordered p) (s : ℕ) :
    p.heap.created.foldl (pick p.heap.mem s) 0 = 0 ↔ ¬ HasFit p s := by
  rw [foldl_pick_eq_zero_iff p.heap.mem s fun b hb => o.chain.ne_null hb, HasFit]
  simp only [not_exists, not_and]

/-- The payload of a block, or a part of it, can be accessed. -/
theorem accessible (o : Ordered p) (hb : b ∈ p.heap.created) (hs : s ≤ get p.heap.mem .size b) :
    p.heap.mem.Accessible (b + blockSize) s := by
  obtain ⟨r, hr, h₀, h₁⟩ := o.inside b hb
  simp only [extentOf, Extent.stop] at h₀ h₁
  refine Memory.accessible_of_within _ hr ⟨?_, ?_⟩
  · exact h₀.trans (Nat.le_add_right b blockSize)
  · simp only [Extent.stop]
    omega

/-- **`mycalloc` when `mymalloc` finds a block or makes one.** -/
theorem calloc_served (o : Ordered p) (hprod : nmemb * s < 2 ^ 64) (hzero : ¬ (nmemb = 0 ∨ s = 0))
    (hanswers : Answers p (nmemb * s) answer)
    (hserved : HasFit p (nmemb * s) ∨ (answer ≠ none ∧ nmemb * s + blockSize ≤ 2 ^ 63 - 1)) :
    ∃ p' out, (Request.calloc nmemb s answer).perform p = .ok (p', out) ∧ Ordered p' ∧
      CallocPromise p.live p.heap.mem p'.heap.mem out (nmemb * s) := by
  obtain ⟨p₁, out, hperform, o₁, hframe, hnull⟩ :=
    o.malloc_of_fresh (nmemb * s) answer fun a ha hpick => by
      have hle := (hserved.resolve_left ((o.pick_eq_zero_iff _).mp hpick)).2
      exact ⟨hle, hanswers a ha hle⟩
  have hout : out ≠ 0 := by
    intro h
    obtain ⟨hpick, hnone⟩ := hnull h
    exact (hserved.resolve_left ((o.pick_eq_zero_iff _).mp hpick)).1 hnone
  obtain ⟨hcall, hlive⟩ := perform_malloc_eq_ok hperform
  rw [if_neg hout] at hlive
  have hmem : (out, nmemb * s) ∈ p₁.live := by
    rw [hlive]
    exact List.mem_cons_self
  obtain ⟨b, hb, rfl, htaken, hlarge⟩ := o₁.live _ hmem
  have hbound := o₁.extent_bound hb
  have hnew : b + blockSize ∉ p.live.map Prod.fst := by
    have honce := o₁.liveOnce
    rw [hlive, List.map_cons, List.nodup_cons] at honce
    exact honce.1
  refine ⟨⟨{ p₁.heap with mem := cleared p₁.heap.mem (b + blockSize) (nmemb * s) }, p₁.live⟩,
    b + blockSize, ?_, ?_, Or.inr ⟨hout, ?_⟩⟩
  · rw [Request.perform, mycalloc, if_neg hzero, Nat.mod_eq_of_lt hprod, hcall, ok_bind]
    dsimp only
    rw [store_cleared (o₁.accessible hb hlarge), ok_bind, pure_eq_ok, ok_bind, if_neg hout, hlive]
    rfl
  · refine o₁.of_payload (List.mem_map_of_mem hmem) fun x hx => put_of_notMem ?_
    simp only [payloadOf, Extent.stop] at hx
    omega
  · refine zeroed_cleared (by omega) hnew htaken hlarge (o₁.accessible hb hlarge)
      fun e he x hx₀ hx₁ => ?_
    obtain ⟨c, hc, hec, -⟩ := o.live e he
    obtain ⟨c', hc', hec', -⟩ := o₁.live e (by rw [hlive]; exact List.mem_cons_of_mem _ he)
    obtain rfl : c = c' := Nat.add_right_cancel (hec.symm.trans hec')
    have hcb : c ≠ b := by
      rintro rfl
      exact hnew (hec ▸ List.mem_map_of_mem he)
    have hcbound := o.extent_bound hc
    rw [hec] at hx₀ hx₁
    rw [headerOf_add (by omega)] at hx₁
    constructor
    · by_contra hchanged
      obtain ⟨v, hv⟩ := hframe.payloads c hc x hx₀ hx₁ hchanged
      cases hv
    · have hsize := hframe.size_eq hc fun h => hcb (Nat.add_right_cancel h).symm
      have hdisjoint := o₁.extents_disjoint hc' hb hcb
      simp only [Extent.Disjoint, extentOf, Extent.stop] at hdisjoint
      omega

/-- **`mycalloc` keeps its promise**, under the condition. -/
theorem calloc (o : Ordered p) (hallowed : (Request.calloc nmemb s answer).Allowed p)
    (hworks : (Request.calloc nmemb s answer).Works p) :
    ∃ p' out, (Request.calloc nmemb s answer).perform p = .ok (p', out) ∧ Ordered p' ∧
      CallocPromise p.live p.heap.mem p'.heap.mem out (nmemb * s) := by
  by_cases hzero : nmemb = 0 ∨ s = 0
  · refine ⟨p, 0, ?_, o, Or.inl ⟨rfl, rfl⟩⟩
    rw [Request.perform, mycalloc, if_pos hzero]
    rfl
  · obtain ⟨-, -, hanswers⟩ := hallowed
    rcases hworks with h | h | ⟨hprod, hserved⟩ | ⟨hprod, hfit, rfl⟩
    · exact absurd (Or.inl h) hzero
    · exact absurd (Or.inr h) hzero
    · rw [Nat.mod_eq_of_lt hprod] at hanswers
      exact o.calloc_served hprod hzero hanswers hserved
    · have hcall : mymalloc (freshBytes none) p.heap 0 = .ok (p.heap, 0) :=
        mymalloc_fail o.blockChain ((o.pick_eq_zero_iff 0).mpr hfit) rfl
      refine ⟨p, 0, ?_, o, Or.inl ⟨rfl, rfl⟩⟩
      rw [Request.perform, mycalloc, if_neg hzero, hprod, hcall, ok_bind]
      dsimp only
      rw [store_cleared (accessible_zero _ _), cleared_zero]
      rfl

/-- **Every request that is allowed and meets the condition can be made**, and keeps the heap
in order. -/
theorem request (o : Ordered p) {r : Request} (hallowed : r.Allowed p) (hworks : r.Works p) :
    ∃ p' out, r.perform p = .ok (p', out) ∧ Ordered p' := by
  cases r with
  | calloc nmemb s answer =>
    obtain ⟨p', out, hperform, ho, -⟩ := o.calloc hallowed hworks
    exact ⟨p', out, hperform, ho⟩
  | call c =>
    cases c with
    | malloc s answer =>
      obtain ⟨p', out, hperform, ho, -⟩ :=
        o.malloc_of_fresh s answer fun a ha hpick => by
          have hle : s + blockSize ≤ 2 ^ 63 - 1 := by
            rcases hworks with h | h | h
            · exact absurd h ((o.pick_eq_zero_iff s).mp hpick)
            · rw [ha] at h
              cases h
            · exact h
          exact ⟨hle, hallowed.2 a ha hle⟩
      exact ⟨p', out, hperform, ho⟩
    | free q =>
      obtain ⟨p', out, hperform, ho, -⟩ := o.free hallowed
      exact ⟨p', out, hperform, ho⟩
    | write x v =>
      obtain ⟨p', out, hperform, ho, -⟩ := o.write hallowed
      exact ⟨p', out, hperform, ho⟩

end Ordered

/-! ## Runs -/

/-- The heap stays in order in every run whose steps meet the condition. -/
theorem ordered_of_requests {p₀ : Program} (h₀ : Initial p₀) {tr : List (Request × ℕ)}
    (hrun : Run (Guarded (fun p r => r.Works p) Request.Step) p₀ tr p) : Ordered p := by
  refine hrun.invariant (P := Ordered) (fun q r out q' o hs => ?_) (Ordered.of_initial h₀)
  obtain ⟨hworks, hallowed, hperform⟩ := hs
  obtain ⟨q₁, out₁, hperform₁, o₁⟩ := o.request hallowed hworks
  rw [hperform, Except.ok.injEq, Prod.mk.injEq] at hperform₁
  rw [hperform₁.1]
  exact o₁

end MemoryAllocator1
end SystemsProjects

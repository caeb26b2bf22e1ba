import SystemsProjects.AdvancedMemory.Records
import SystemsProjects.Lib.BestFit
import SystemsProjects.Lib.Rounds
import SystemsProjects.MemoryAllocator1.Growth

/-!
# Best fit and the growth of the heap

The first allocator never splits a block, so its heap grows by a block whenever a request finds
none that is free and large enough.  It does not grow if the requests can be assigned to free
blocks, each to one of its own that is large enough: they are all served from the list, in
whatever order they come, as best fit takes no block that another request needs
(`Assigned.take`).  Behind a round of requests all blocks that served it are free again, so no
further round of the same requests grows the heap either (`RoundRules`).

The memory is that of records, `AdvancedMemory.Records`: what counts is the list and the three
fields of each block.  So every request and every answer of `sbrk` is allowed here, as long as
the new block is not at the address of another one.
-/

namespace SystemsProjects
namespace MemoryAllocator1

open Lib Allocator BlockStore
open AdvancedMemory (Records get_set_records)

/-! ## Programs -/

/-- A call of a program, with the answer of `sbrk` if it is asked. -/
inductive RecordCall where
  | malloc (s : ℕ) (answer : Option ℕ)
  | free (q : ℕ)
  deriving DecidableEq

/-- `sbrk` fails, or there is a new record. -/
def newRecord (answer : Option ℕ) : Sbrk Records := fun m _ =>
  answer.map fun a => (a, BlockStore.map m ⟨a, blockSize⟩)

/-- What the program may ask, and what the operating system may answer. -/
def RecordCall.Allowed (h : Heap Records) : RecordCall → Prop
  | .malloc s answer => s < 2 ^ 64 ∧
      ∀ a, answer = some a → a ≠ 0 ∧ a + blockSize < 2 ^ 64 ∧ a ∉ h.created
  | .free q => q = 0 ∨ ∃ b ∈ h.created, q = b + blockSize

/-- The call, with the pointer that is returned. -/
def performRecord (h : Heap Records) : RecordCall → Except Stop (Heap Records × ℕ)
  | .malloc s answer => mymalloc (newRecord answer) h s
  | .free q => do
      let h ← myfree h q
      pure (h, 0)

/-- A call that is allowed, and returns. -/
def RecordStep (h : Heap Records) (c : RecordCall) (q : ℕ) (h' : Heap Records) : Prop :=
  c.Allowed h ∧ performRecord h c = .ok (h', q)

/-- The list runs through all blocks, and each is marked as free or as taken. -/
structure Listed (h : Heap Records) : Prop where
  chain : BlockChain h.mem h.blockHead h.created
  bound : ∀ b ∈ h.created, b + blockSize < 2 ^ 64
  mark : ∀ b ∈ h.created, get h.mem .free b = 0 ∨ get h.mem .free b = 1

/-- A block that has been handed out for a request of `s` bytes: it was free, or it is new. -/
structure HandedOut (h h' : Heap Records) (b s : ℕ) : Prop where
  listed : Listed h'
  kept : ∀ c ∈ h.created, c ∈ h'.created
  fields : ∀ c ∈ h.created, c ≠ b → ∀ f, f ≠ .next → get h'.mem f c = get h.mem f c
  mem : b ∈ h'.created
  idle : b ∈ h.created → get h.mem .free b = 1
  taken : get h'.mem .free b = 0
  large : s ≤ get h'.mem .size b

namespace Listed

variable {h : Heap Records} {b s a v q : ℕ}

theorem ne_zero (k : Listed h) (hb : b ∈ h.created) : b ≠ 0 := k.chain.visits.ne_null hb

/-- **Marking a block.** -/
theorem setFree (k : Listed h) (hv : v = 0 ∨ v = 1) (b : ℕ) :
    Listed { h with mem := set h.mem .free b v } where
  chain :=
    { visits := k.chain.visits.congr fun c _ => get_set_records v (Or.inr (by decide))
      header := fun c hc => header_set _ _ _ (k.chain.header c hc)
      lt := k.chain.lt }
  bound := k.bound
  mark c hc := by
    show get (set h.mem .free b v) .free c = 0 ∨ get (set h.mem .free b v) .free c = 1
    by_cases hcb : c = b
    · have hlt : v < 256 ^ Field.free.width := by
        show v < 256 ^ 4
        omega
      rw [hcb, get_set_of_lt _ b hlt]
      exact hv
    · rw [get_set_records v (Or.inl hcb)]
      exact k.mark c hc

/-- **A new record** is linked in behind the other ones. -/
theorem grown_spec (k : Listed h) (hs : s < 2 ^ 64) (hpos : a ≠ 0)
    (ha : a + blockSize < 2 ^ 64) (hnew : a ∉ h.created) :
    GrownBy h (BlockStore.map h.mem ⟨a, blockSize⟩)
      (grown h (h.created.getLastD 0) a s (BlockStore.map h.mem ⟨a, blockSize⟩)) a s :=
  grownBy k.chain.visits (fun _ _ _ _ hne => hne) (fun _ hc hca => hnew (hca ▸ hc))
    (fun _ _ f => get_map _ _ f _) hpos (by omega) hs

theorem grow (k : Listed h) (hs : s < 2 ^ 64) (hpos : a ≠ 0) (ha : a + blockSize < 2 ^ 64)
    (hnew : a ∉ h.created) :
    HandedOut h (grown h (h.created.getLastD 0) a s (BlockStore.map h.mem ⟨a, blockSize⟩))
      a s := by
  have g := k.grown_spec hs hpos ha hnew
  generalize grown h (h.created.getLastD 0) a s (BlockStore.map h.mem ⟨a, blockSize⟩) = h' at g
  have hmem : ∀ c, c ∈ h'.created ↔ c ∈ h.created ∨ c = a := fun c => by
    rw [g.created, List.mem_append, List.mem_singleton]
  have hheader : Header (BlockStore.map h.mem ⟨a, blockSize⟩) a :=
    header_of_within (r := ⟨a, blockSize⟩) List.mem_cons_self ⟨Nat.le_refl _, Nat.le_refl _⟩
  refine ⟨⟨⟨?_, fun c hc => ?_, fun c hc => ?_⟩, fun c hc => ?_, fun c hc => ?_⟩,
    fun c hc => (hmem c).mpr (Or.inl hc), fun c hc _ f hf => g.other c hc f hf,
    (hmem a).mpr (Or.inr rfl), fun hc => absurd hc hnew, g.free, g.size.ge⟩
  · rw [g.created]
    exact g.chain
  · refine g.header c ?_
    rcases (hmem c).mp hc with hc | rfl
    · exact header_map _ (k.chain.header c hc)
    · exact hheader
  · rcases (hmem c).mp hc with hc | rfl
    · exact k.chain.lt c hc
    · exact (Nat.le_add_right _ _).trans_lt ha
  · rcases (hmem c).mp hc with hc | rfl
    · exact k.bound c hc
    · exact ha
  · rcases (hmem c).mp hc with hc | rfl
    · rw [g.other c hc _ (by decide)]
      exact k.mark c hc
    · exact Or.inl g.free

/-- **A free block** is taken. -/
theorem reuse (k : Listed h) (hb : b ∈ h.created) (hfits : Fits h.mem s b) :
    HandedOut h { h with mem := set h.mem .free b 0 } b s where
  listed := k.setFree (Or.inl rfl) b
  kept _ hc := hc
  fields _ _ hcb _ _ := get_set_records 0 (Or.inl hcb)
  mem := hb
  idle _ := hfits.2
  taken := get_set_of_lt _ b (by decide)
  large := by
    show s ≤ get (set h.mem .free b 0) .size b
    rw [get_set_records 0 (Or.inr (by decide))]
    exact hfits.1

/-- **What `mymalloc` does to the list.** -/
theorem mymalloc_cases (k : Listed h) {h' : Heap Records} {answer : Option ℕ}
    (hallowed : (RecordCall.malloc s answer).Allowed h)
    (hcall : mymalloc (newRecord answer) h s = .ok (h', q)) :
    (q = 0 ∧ h' = h) ∨ ∃ b, q = b + blockSize ∧ HandedOut h h' b s := by
  obtain ⟨hs, hanswer⟩ := hallowed
  have hsbrk : newRecord answer h.mem (increment s) =
      answer.map fun a => (a, BlockStore.map h.mem ⟨a, blockSize⟩) := by
    unfold newRecord
    rfl
  by_cases hpick : h.created.foldl (pick h.mem s) 0 = 0
  · cases answer with
    | none =>
      rw [mymalloc_fail k.chain hpick hsbrk, Except.ok.injEq, Prod.mk.injEq] at hcall
      exact Or.inl ⟨hcall.2.symm, hcall.1.symm⟩
    | some a =>
      obtain ⟨hpos, ha, hnew⟩ := hanswer a rfl
      have hheader : Header (BlockStore.map h.mem ⟨a, blockSize⟩) a :=
        header_of_within (r := ⟨a, blockSize⟩) List.mem_cons_self ⟨Nat.le_refl _, Nat.le_refl _⟩
      rw [mymalloc_grow k.chain hpick hsbrk hheader fun c hc => header_map _ (k.chain.header c hc),
        Except.ok.injEq, Prod.mk.injEq] at hcall
      refine Or.inr ⟨a, ?_, ?_⟩
      · rw [← hcall.2, payload_of_lt ha]
      · rw [← hcall.1]
        exact k.grow hs hpos ha hnew
  · obtain ⟨hb, hfits, hreuse⟩ := mymalloc_reuse k.chain (newRecord answer) rfl hpick
    rw [hreuse, Except.ok.injEq, Prod.mk.injEq] at hcall
    refine Or.inr ⟨h.created.foldl (pick h.mem s) 0, ?_, ?_⟩
    · rw [← hcall.2, payload_of_lt (k.bound _ hb)]
    · rw [← hcall.1]
      exact k.reuse hb hfits

/-- **A free block is freed again**: nothing changes. -/
theorem myfree_free (k : Listed h) (hb : b ∈ h.created) (hfree : get h.mem .free b = 1) :
    myfree h (b + blockSize) = .ok h := by
  have hbody : myfreeBody (b + blockSize) h = .ok (.inr h) := by
    rw [myfreeBody, headerOf_add (k.bound b hb), load_eq _ (k.chain.header b hb), ok_bind, hfree,
      if_pos rfl]
    rfl
  have hfuel : addresses = 2 ^ 64 - 1 + 1 := by norm_num [addresses]
  have hne : b + blockSize ≠ 0 := Nat.succ_ne_zero (b + 23)
  rw [myfree, if_neg hne, hfuel]
  exact loop_of_leave hbody

/-- **One call of the program**, of any kind. -/
theorem step (k : Listed h) {c : RecordCall} {h' : Heap Records} (hstep : RecordStep h c q h') :
    Listed h' := by
  obtain ⟨hallowed, hcall⟩ := hstep
  cases c with
  | malloc s answer =>
    rcases k.mymalloc_cases hallowed hcall with ⟨-, rfl⟩ | ⟨b, -, o⟩
    · exact k
    · exact o.listed
  | free ptr =>
    obtain ⟨h₁, hfree, hcall⟩ := bind_eq_ok.mp hcall
    cases hcall
    rcases hallowed with rfl | ⟨b, hb, rfl⟩
    · rw [myfree_null] at hfree
      cases hfree
      exact k
    · rcases k.mark b hb with hmark | hmark
      · rw [myfree_live (k.bound b hb) (k.chain.header b hb) hmark] at hfree
        cases hfree
        exact k.setFree (Or.inr rfl) b
      · rw [k.myfree_free hb hmark] at hfree
        cases hfree
        exact k

/-- **A block that fits is found**, and the one that is found is a best fit. -/
theorem best_fit (k : Listed h) {c : ℕ} (hc : c ∈ h.created) (hfits : Fits h.mem s c) :
    ∃ b, b ∈ h.created ∧ Fits h.mem s b ∧
      (∀ d ∈ h.created, Fits h.mem s d → get h.mem .size b ≤ get h.mem .size d) ∧
      findOptimalFreeBlock h s = .ok b ∧ ∀ sbrk : Sbrk Records,
        mymalloc sbrk h s = .ok ({ h with mem := set h.mem .free b 0 }, b + blockSize) := by
  have hne : ∀ b ∈ h.created, b ≠ 0 := fun b hb => k.ne_zero hb
  have hbest := (foldl_pick_spec h.mem s h.created hne).resolve_left fun hnull =>
    hnull.2 c hc hfits
  refine ⟨_, hbest.mem, hbest.fits, fun d hd => hbest.least hd,
    findOptimalFreeBlock_eq k.chain s, fun sbrk => ?_⟩
  rw [← payload_of_lt (k.bound _ hbest.mem)]
  exact (mymalloc_reuse k.chain sbrk rfl (hne _ hbest.mem)).2.2

end Listed

/-! ## Calls that leave the heap as large as it is -/

/-- A block that can be handed out. -/
def FreeBlock (h : Heap Records) (b : ℕ) : Prop := b ∈ h.created ∧ get h.mem .free b = 1

/-- `mymalloc` answers a request of `s` bytes with a pointer, with or without `sbrk`. -/
def Serves (h : Heap Records) (s q : ℕ) (h' : Heap Records) : Prop :=
  q ≠ 0 ∧ ∃ answer, RecordStep h (.malloc s answer) q h'

/-- **A call of `mymalloc` without `sbrk`.** -/
structure Quiet (h : Heap Records) (s q : ℕ) (h' : Heap Records) : Prop where
  /-- there is a best block, and `extendMemory` is not called -/
  found : ∃ b, b ≠ 0 ∧ findOptimalFreeBlock h s = .ok b
  /-- the call returns the same whatever `sbrk` would answer -/
  returns : ∀ sbrk : Sbrk Records, mymalloc sbrk h s = .ok (h', q)
  pointer : q ≠ 0
  blocks : h'.created = h.created

/-- The pointers that a program holds, with the sizes that were asked for. -/
structure Held (h : Heap Records) (held : List (ℕ × ℕ)) : Prop where
  block : ∀ e ∈ held, ∃ b ∈ h.created, e.1 = b + blockSize ∧ get h.mem .free b = 0 ∧
    e.2 ≤ get h.mem .size b
  once : (held.map Prod.fst).Nodup

/-- The free blocks can serve the requests `rest`, and the pointers `held` are held. -/
structure Serving (h : Heap Records) (rest : List ℕ) (held : List (ℕ × ℕ)) : Prop where
  listed : Listed h
  held : Held h held
  assigned : Assigned (get h.mem .size) (FreeBlock h) rest

variable {h h' : Heap Records} {b s q : ℕ} {rest : List ℕ} {held : List (ℕ × ℕ)} {e : ℕ × ℕ}

/-- One more pointer is held. -/
theorem Held.hand (v : Held h held) (o : HandedOut h h' b s) :
    Held h' ((b + blockSize, s) :: held) where
  block e he := by
    rcases List.mem_cons.mp he with rfl | he
    · exact ⟨b, o.mem, rfl, o.taken, o.large⟩
    · obtain ⟨c, hc, hec, hzero, hle⟩ := v.block e he
      have hcb : c ≠ b := by
        rintro rfl
        rw [o.idle hc] at hzero
        cases hzero
      refine ⟨c, o.kept c hc, hec, ?_, ?_⟩
      · rw [o.fields c hc hcb .free (by decide), hzero]
      · rw [o.fields c hc hcb .size (by decide)]
        exact hle
  once := by
    refine List.nodup_cons.mpr ⟨fun hmem => ?_, v.once⟩
    obtain ⟨e, he, heq⟩ := List.mem_map.mp hmem
    obtain ⟨c, hc, hec, hzero, -⟩ := v.block e he
    obtain rfl : c = b := Nat.add_right_cancel (hec.symm.trans heq)
    rw [o.idle hc] at hzero
    cases hzero

/-- A pointer is given back. -/
theorem Held.free (v : Held h held) :
    Held { h with mem := set h.mem .free b 1 } (held.filter fun d => d.1 ≠ b + blockSize) where
  block e he := by
    obtain ⟨he, hne⟩ := List.mem_filter.mp he
    obtain ⟨c, hc, hec, hzero, hle⟩ := v.block e he
    have hcb : c ≠ b := fun h => of_decide_eq_true hne (by rw [hec, h])
    refine ⟨c, hc, hec, ?_, ?_⟩
    · exact (get_set_records 1 (Or.inl hcb)).trans hzero
    · exact hle.trans (get_set_records 1 (Or.inl hcb)).ge
  once := v.once.sublist (List.filter_sublist.map _)

namespace Serving

/-- A call of any kind. -/
theorem serve (v : Serving h [] held) (hserves : Serves h s q h') :
    Serving h' [] ((q, s) :: held) := by
  obtain ⟨hq, answer, hallowed, hcall⟩ := hserves
  rcases v.listed.mymalloc_cases hallowed hcall with ⟨hzero, -⟩ | ⟨b, rfl, o⟩
  · exact absurd hzero hq
  · exact ⟨o.listed, v.held.hand o, Assigned.nil⟩

/-- **A request that can be served** is served by a quiet call, which leaves the free blocks
that the other requests need. -/
theorem quiet (v : Serving h (s :: rest) held) :
    ∃ q h', Quiet h s q h' ∧ Serving h' rest ((q, s) :: held) := by
  obtain ⟨c, -, ⟨⟨hc, hone⟩, hle⟩, -⟩ := v.assigned.exists_place
  obtain ⟨b, hb, hfits, hbest, hfind, hcall⟩ := v.listed.best_fit hc ⟨hle, hone⟩
  have o := v.listed.reuse hb hfits
  refine ⟨b + blockSize, _, ⟨⟨b, v.listed.ne_zero hb, hfind⟩, hcall, Nat.succ_ne_zero (b + 23),
    rfl⟩, o.listed, v.held.hand o, ?_⟩
  have htaken := v.assigned.take (b := b) fun d hd hle => hbest d hd.1 ⟨hle, hd.2⟩
  refine htaken.mono (fun d hd => ⟨hd.1.1, ?_⟩) fun d _ => ?_
  · exact (get_set_records 0 (Or.inl hd.2)).trans hd.1.2
  · exact (get_set_records 0 (Or.inr (by decide))).ge

/-- **A pointer that is held is freed**, and its block can serve its request. -/
theorem release (v : Serving h rest held) (he : e ∈ held) :
    ∃ h' others, myfree h e.1 = .ok h' ∧ held.Perm (e :: others) ∧
      Serving h' (e.2 :: rest) others := by
  obtain ⟨b, hb, heb, hzero, hle⟩ := v.held.block e he
  refine ⟨{ h with mem := set h.mem .free b 1 }, held.filter fun d => d.1 ≠ e.1, ?_,
    perm_cons_filter_ne v.held.once he, v.listed.setFree (Or.inr rfl) b, ?_, ?_⟩
  · rw [heb]
    exact myfree_live (v.listed.bound b hb) (v.listed.chain.header b hb) hzero
  · rw [heb]
    exact v.held.free
  · have hsize : get (set h.mem .free b 1) .size = get h.mem .size :=
      funext fun c => get_set_records 1 (Or.inr (by decide))
    show Assigned (get (set h.mem .free b 1) .size) _ _
    rw [hsize]
    refine v.assigned.cons (b := b) (fun hfree => ?_) ⟨hb, get_set_of_lt _ b (by decide)⟩
      (fun c hc => ⟨hc.1, ?_⟩) hle
    · rw [hfree.2] at hzero
      cases hzero
    · by_cases hcb : c = b
      · rw [hcb]
        exact get_set_of_lt _ b (by decide)
      · exact (get_set_records 1 (Or.inl hcb)).trans hc.2

theorem rules : RoundRules Serves Quiet (myfree (M := Records)) Serving where
  serve v hserves := v.serve hserves
  quiet v := v.quiet
  release v he := v.release he
  perm v hperm := ⟨v.listed, v.held, v.assigned.perm hperm⟩

end Serving

end MemoryAllocator1
end SystemsProjects

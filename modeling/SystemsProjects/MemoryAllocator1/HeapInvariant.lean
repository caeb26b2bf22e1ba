import SystemsProjects.MemoryAllocator1.Growth

/-!
# The heap of the first allocator over whole runs

A program calls `mymalloc` and `myfree` and writes bytes into the payloads that it
holds.  The operating system refuses a request for memory or maps a fresh region
of exactly the size asked for.

`HeapInvariant` is what holds in every state that such a program reaches: the list
runs through every block that was ever made, the blocks share no byte, and a live
pointer owns a block that is marked as taken.  `StepFrame` says which bytes a step
can change.  A header is changed by the calls on its own block, with one exception:
when the heap grows, the youngest block gets its link.  `not_headers_untouched` is a
run where this happens.
-/

namespace SystemsProjects
namespace MemoryAllocator1

open Lib Allocator BlockStore

/-! ## Programs -/

/-- The heap, and the live pointers with the sizes that were asked for. -/
structure Program where
  heap : Heap Memory
  live : List (ℕ × ℕ)

/-- The bytes of memory. -/
def Program.bytes (p : Program) : ℕ → UInt8 := p.heap.mem.bytes

/-- The header and the payload of a block. -/
def extentOf (m : Memory) (b : ℕ) : Extent := ⟨b, blockSize + get m .size b⟩

/-- The payload of a block. -/
def payloadOf (m : Memory) (b : ℕ) : Extent := ⟨b + blockSize, get m .size b⟩

/-- A step of a program: a call, with the answer of `sbrk` if it is asked, or the
write of a byte. -/
inductive Call where
  | malloc (s : ℕ) (answer : Option ℕ)
  | free (q : ℕ)
  | write (x : ℕ) (v : UInt8)
  deriving DecidableEq

/-- `sbrk` fails, or answers with the start of a new region. -/
def freshBytes (answer : Option ℕ) : Sbrk Memory := fun m n =>
  answer.map fun a => (a, BlockStore.map m ⟨a, n.toNat⟩)

/-- What the program may do, and what the operating system may answer. -/
def Call.Allowed (p : Program) : Call → Prop
  | .malloc s answer => s + blockSize ≤ 2 ^ 63 - 1 ∧
      ∀ a, answer = some a → Fresh p.heap.mem ⟨a, s + blockSize⟩
  | .free q => q = 0 ∨ q ∈ p.live.map Prod.fst
  | .write x _ => ∃ b, b + blockSize ∈ p.live.map Prod.fst ∧
      (payloadOf p.heap.mem b).start ≤ x ∧ x < (payloadOf p.heap.mem b).stop

/-- The step, with the pointer that is returned. -/
def perform (p : Program) : Call → Except Stop (Program × ℕ)
  | .malloc s answer => do
      let (h, q) ← mymalloc (freshBytes answer) p.heap s
      pure (⟨h, if q = 0 then p.live else (q, s) :: p.live⟩, q)
  | .free q => do
      let h ← myfree p.heap q
      pure (⟨h, p.live.filter fun e => e.1 ≠ q⟩, 0)
  | .write x v =>
      pure (⟨{ p.heap with mem := { p.heap.mem with bytes := Function.update p.bytes x v } },
        p.live⟩, 0)

/-- A call that is allowed, and returns. -/
def Step (p : Program) (c : Call) (out : ℕ) (p' : Program) : Prop :=
  c.Allowed p ∧ perform p c = .ok (p', out)

/-- Before the first call: the heap is empty, and `sbrk` has not been called. -/
structure Initial (p : Program) : Prop where
  blockHead : p.heap.blockHead = 0
  created : p.heap.created = []
  mapped : p.heap.mem.mapped = []
  live : p.live = []

/-! ## What is claimed -/

/-- **The heap is in order.** -/
structure HeapInvariant (p : Program) : Prop where
  /-- the list from `block_head` runs through all blocks ever made and ends -/
  chain : Visits 0 (get p.heap.mem .next) p.heap.blockHead p.heap.created
  /-- and meets each of them once -/
  once : p.heap.created.Nodup
  disjoint : p.heap.created.Pairwise fun b c =>
    (extentOf p.heap.mem b).Disjoint (extentOf p.heap.mem c)
  inside : ∀ b ∈ p.heap.created, ∃ r ∈ p.heap.mem.mapped, (extentOf p.heap.mem b).Within r
  /-- a live pointer is the payload of a taken block that is large enough -/
  live : ∀ q ∈ p.live, ∃ b ∈ p.heap.created, q.1 = b + blockSize ∧
    get p.heap.mem .free b = 0 ∧ q.2 ≤ get p.heap.mem .size b
  /-- and no two of them share a block -/
  liveOnce : (p.live.map Prod.fst).Nodup

/-- The link of the youngest block `b`, when a call makes a new one. -/
def Links (p p' : Program) (out b x : ℕ) : Prop :=
  p.heap.created.getLast? = some b ∧ (b + 8 ≤ x ∧ x < b + 16) ∧
    ∃ a, out = a + blockSize ∧ p'.heap.created = p.heap.created ++ [a]

/-- **What a step changes.**  A byte of a header changes in a call on its block or as
the link of the youngest block, a byte of a payload when the program writes it. -/
structure StepFrame (p : Program) (c : Call) (out : ℕ) (p' : Program) : Prop where
  headers : ∀ b ∈ p.heap.created, ∀ x, b ≤ x → x < b + blockSize →
    p'.bytes x ≠ p.bytes x →
      ((∃ s answer, c = .malloc s answer) ∧ (out = b + blockSize ∨ Links p p' out b x)) ∨
        c = .free (b + blockSize)
  payloads : ∀ b ∈ p.heap.created, ∀ x, (payloadOf p.heap.mem b).start ≤ x →
    x < (payloadOf p.heap.mem b).stop → p'.bytes x ≠ p.bytes x → ∃ v, c = .write x v

/-! ## Bytes and fields -/

variable {p p' : Program} {b c : ℕ}

/-- Disjoint blocks have headers that stand apart. -/
theorem apart_of_extents {m : Memory} (h : (extentOf m b).Disjoint (extentOf m c)) :
    Apart Memory b c := by
  refine apart_of_disjoint ?_
  rcases h with h | h
  · refine Or.inl (Nat.le_trans ?_ h)
    exact Nat.add_le_add_left (Nat.le_add_right _ _) b
  · refine Or.inr (Nat.le_trans ?_ h)
    exact Nat.add_le_add_left (Nat.le_add_right _ _) c

/-! ## The invariant that is carried along -/

/-- The claimed invariant with the bounds of the address space. -/
structure Ordered (p : Program) : Prop extends HeapInvariant p where
  bound : ∀ r ∈ p.heap.mem.mapped, r.stop ≤ 2 ^ 63

namespace Ordered

theorem header (o : Ordered p) (hb : b ∈ p.heap.created) : Header p.heap.mem b := by
  obtain ⟨r, hr, h₀, h₁⟩ := o.inside b hb
  refine header_of_within hr ⟨h₀, Nat.le_trans ?_ h₁⟩
  exact Nat.add_le_add_left (Nat.le_add_right _ _) b

theorem extent_bound (o : Ordered p) (hb : b ∈ p.heap.created) :
    b + blockSize + get p.heap.mem .size b ≤ 2 ^ 63 := by
  obtain ⟨r, hr, -, h₁⟩ := o.inside b hb
  rw [Nat.add_assoc]
  exact Nat.le_trans h₁ (o.bound r hr)

theorem payload_eq (o : Ordered p) (hb : b ∈ p.heap.created) : payload b = b + blockSize := by
  have hbound := o.extent_bound hb
  exact payload_of_lt (by omega)

theorem blockChain (o : Ordered p) : BlockChain p.heap.mem p.heap.blockHead p.heap.created where
  visits := o.chain
  header b hb := o.header hb
  lt b hb := by
    have hbound := o.extent_bound hb
    show b < 2 ^ 64
    omega

theorem extents_disjoint (o : Ordered p) (hb : b ∈ p.heap.created) (hc : c ∈ p.heap.created)
    (hne : b ≠ c) : (extentOf p.heap.mem b).Disjoint (extentOf p.heap.mem c) := by
  have : Std.Symm fun b c => (extentOf p.heap.mem b).Disjoint (extentOf p.heap.mem c) :=
    ⟨fun _ _ h => h.symm⟩
  exact o.disjoint.forall hb hc hne

theorem apart (o : Ordered p) (hb : b ∈ p.heap.created) (hc : c ∈ p.heap.created)
    (hne : b ≠ c) : Apart Memory b c :=
  apart_of_extents (o.extents_disjoint hb hc hne)

/-- A byte is in the header of one block at most. -/
theorem header_unique (o : Ordered p) (hb : b ∈ p.heap.created) (hc : c ∈ p.heap.created)
    {x : ℕ} (hxb : b ≤ x ∧ x < b + blockSize) (hxc : c ≤ x ∧ x < c + blockSize) : b = c := by
  by_contra hne
  rcases o.apart hb hc hne with h | h
  · omega
  · omega

/-- A byte of a header is in no payload. -/
theorem header_ne_payload (o : Ordered p) (hb : b ∈ p.heap.created) (hc : c ∈ p.heap.created)
    {x : ℕ} (hxb : b ≤ x ∧ x < b + blockSize) (hx₀ : (payloadOf p.heap.mem c).start ≤ x)
    (hx₁ : x < (payloadOf p.heap.mem c).stop) : False := by
  simp only [payloadOf, Extent.stop] at hx₀ hx₁
  by_cases hbc : b = c
  · rw [hbc] at hxb
    omega
  · rcases o.extents_disjoint hb hc hbc with h | h
    · simp only [extentOf, Extent.stop] at h
      omega
    · simp only [extentOf, Extent.stop] at h
      omega

/-- The payload of a live pointer. -/
theorem live_block (o : Ordered p) {q : ℕ} (hq : q ∈ p.live.map Prod.fst) :
    ∃ b ∈ p.heap.created, q = b + blockSize ∧ get p.heap.mem .free b = 0 := by
  obtain ⟨e, he, rfl⟩ := List.mem_map.mp hq
  obtain ⟨b, hb, hqb, hfree, -⟩ := o.live e he
  exact ⟨b, hb, hqb, hfree⟩

/-- **A step that makes no block and changes no size and no link** keeps the order, if
the live pointers are right after it. -/
theorem of_fields (o : Ordered p) (hhead : p'.heap.blockHead = p.heap.blockHead)
    (hcreated : p'.heap.created = p.heap.created)
    (hmapped : p'.heap.mem.mapped = p.heap.mem.mapped)
    (hsize : ∀ b ∈ p.heap.created, get p'.heap.mem .size b = get p.heap.mem .size b)
    (hnext : ∀ b ∈ p.heap.created, get p'.heap.mem .next b = get p.heap.mem .next b)
    (hlive : ∀ q ∈ p'.live, ∃ b ∈ p.heap.created, q.1 = b + blockSize ∧
      get p'.heap.mem .free b = 0 ∧ q.2 ≤ get p.heap.mem .size b)
    (honce : (p'.live.map Prod.fst).Nodup) : Ordered p' := by
  have hextent : ∀ b ∈ p.heap.created, extentOf p'.heap.mem b = extentOf p.heap.mem b := by
    intro b hb
    rw [extentOf, extentOf, hsize b hb]
  exact
    { chain := by
        rw [hhead, hcreated]
        exact o.chain.congr hnext
      once := by
        rw [hcreated]
        exact o.once
      disjoint := by
        rw [hcreated]
        refine o.disjoint.imp_of_mem fun hb hc h => ?_
        rw [hextent _ hb, hextent _ hc]
        exact h
      inside := by
        intro b hb
        rw [hcreated] at hb
        rw [hextent b hb, hmapped]
        exact o.inside b hb
      live := by
        intro q hq
        obtain ⟨b, hb, hqb, hfree, hle⟩ := hlive q hq
        rw [hcreated]
        exact ⟨b, hb, hqb, hfree, by rw [hsize b hb]; exact hle⟩
      liveOnce := honce
      bound := by
        rw [hmapped]
        exact o.bound }

/-- **Marking a block**, as taken or as free. -/
theorem setFree (o : Ordered p) (hb : b ∈ p.heap.created) {v : ℕ} (hv : v < 256 ^ 4)
    {live' : List (ℕ × ℕ)}
    (hlive : ∀ q ∈ live', (q ∈ p.live ∧ q.1 ≠ b + blockSize) ∨
      (v = 0 ∧ q.1 = b + blockSize ∧ q.2 ≤ get p.heap.mem .size b))
    (honce : (live'.map Prod.fst).Nodup) :
    Ordered ⟨{ p.heap with mem := set p.heap.mem .free b v }, live'⟩ := by
  have hother : ∀ c ∈ p.heap.created, c ≠ b → ∀ f,
      get (set p.heap.mem .free b v) f c = get p.heap.mem f c := fun c hc hne f =>
    get_set_of_apart _ _ _ _ (o.apart hb hc hne.symm)
  have hfield : ∀ c ∈ p.heap.created, ∀ f, f ≠ .free →
      get (set p.heap.mem .free b v) f c = get p.heap.mem f c := by
    intro c hc f hf
    by_cases hcb : c = b
    · rw [hcb, get_set_of_ne _ _ _ hf]
    · exact hother c hc hcb f
  refine o.of_fields rfl rfl rfl (fun c hc => hfield c hc _ (by decide))
    (fun c hc => hfield c hc _ (by decide)) (fun q hq => ?_) honce
  rcases hlive q hq with ⟨hq, hne⟩ | ⟨rfl, hqb, hle⟩
  · obtain ⟨c, hc, hqc, hfree, hle⟩ := o.live q hq
    have hcb : c ≠ b := fun h => hne (by rw [hqc, h])
    exact ⟨c, hc, hqc, by rw [hother c hc hcb, hfree], hle⟩
  · exact ⟨b, hb, hqb, get_set_of_lt _ b hv, hle⟩

/-- The bytes that marking a block changes. -/
theorem setFree_bytes {v x : ℕ} (hx : (set p.heap.mem .free b v).bytes x ≠ p.bytes x) :
    b ≤ x ∧ x < b + blockSize := by
  by_contra hout
  exact hx (bytes_set_of_header _ _ _ _ (by omega))

/-! ## Growing the heap -/

section Grow

variable (o : Ordered p) {s a : ℕ} (ha : Fresh p.heap.mem ⟨a, s + blockSize⟩)

include o ha

/-- A new extent shares no byte with the blocks there are. -/
theorem new_disjoint (hc : c ∈ p.heap.created) :
    (extentOf p.heap.mem c).Disjoint ⟨a, s + blockSize⟩ := by
  obtain ⟨r, hr, hin⟩ := o.inside c hc
  exact (ha.disjoint r hr).symm.of_within hin ⟨Nat.le_refl _, Nat.le_refl _⟩

theorem new_apart (hc : c ∈ p.heap.created) : Apart Memory c a := by
  have hdisjoint := o.new_disjoint ha hc
  refine apart_of_disjoint ?_
  simp only [Extent.Disjoint, Extent.stop, extentOf] at hdisjoint
  omega

theorem ne_new (hc : c ∈ p.heap.created) : c ≠ a := by
  rintro rfl
  have hdisjoint := o.new_disjoint ha hc
  have hpos : 0 < blockSize := by decide
  simp only [Extent.Disjoint, Extent.stop, extentOf] at hdisjoint
  omega

end Grow

/-- **What growing the heap does to the memory**, in a fresh region. -/
theorem grown_spec (o : Ordered p) {s a : ℕ} (ha : Fresh p.heap.mem ⟨a, s + blockSize⟩) :
    GrownBy p.heap (BlockStore.map p.heap.mem ⟨a, s + blockSize⟩)
      (grown p.heap (p.heap.created.getLastD 0) a s
        (BlockStore.map p.heap.mem ⟨a, s + blockSize⟩)) a s := by
  have hbound : a + (s + blockSize) ≤ 2 ^ 63 := ha.stop
  exact grownBy o.chain (fun _ hb _ hc => o.apart hb hc) (fun _ hc => o.new_apart ha hc)
    (fun c _ f => get_map _ _ f c) (Nat.ne_of_gt ha.pos) (by omega) (by omega)

/-- **Growing the heap** by a block of `s` bytes in a fresh region. -/
theorem grow (o : Ordered p) {s a : ℕ} (ha : Fresh p.heap.mem ⟨a, s + blockSize⟩) :
    Ordered ⟨grown p.heap (p.heap.created.getLastD 0) a s
      (BlockStore.map p.heap.mem ⟨a, s + blockSize⟩), (a + blockSize, s) :: p.live⟩ := by
  have g := o.grown_spec ha
  have hcreated := g.created
  have hmapped : Memory.mapped _ = ⟨a, s + blockSize⟩ :: p.heap.mem.mapped := g.regions
  generalize grown p.heap (p.heap.created.getLastD 0) a s
    (BlockStore.map p.heap.mem ⟨a, s + blockSize⟩) = h at g hcreated hmapped
  have hextent : ∀ c ∈ p.heap.created, extentOf h.mem c = extentOf p.heap.mem c := by
    intro c hc
    rw [extentOf, extentOf, g.other c hc _ (by decide)]
  have hextent_new : extentOf h.mem a = ⟨a, s + blockSize⟩ := by
    rw [extentOf, g.size, Nat.add_comm]
  refine
    { chain := ?_, once := ?_, disjoint := ?_, inside := ?_, live := ?_, liveOnce := ?_,
      bound := ?_ }
  · rw [hcreated]
    exact g.chain
  · rw [hcreated]
    refine List.Nodup.append o.once (List.nodup_singleton a) fun c hc hca => ?_
    exact o.ne_new ha hc (List.mem_singleton.mp hca)
  · rw [hcreated, List.pairwise_append]
    refine ⟨o.disjoint.imp_of_mem fun hb hc h => ?_, List.pairwise_singleton _ _,
      fun c hc d hd => ?_⟩
    · rw [hextent _ hb, hextent _ hc]
      exact h
    · rw [List.mem_singleton.mp hd, hextent c hc, hextent_new]
      exact o.new_disjoint ha hc
  · intro c hc
    rw [hcreated] at hc
    rw [hmapped]
    rcases List.mem_append.mp hc with hc | hc
    · obtain ⟨r, hr, hin⟩ := o.inside c hc
      rw [hextent c hc]
      exact ⟨r, List.mem_cons_of_mem _ hr, hin⟩
    · rw [List.mem_singleton.mp hc, hextent_new]
      exact ⟨_, List.mem_cons_self, Nat.le_refl _, Nat.le_refl _⟩
  · intro q hq
    rw [hcreated]
    rcases List.mem_cons.mp hq with rfl | hq
    · exact ⟨a, List.mem_append_right _ (List.mem_singleton_self a), rfl, g.free,
        Nat.le_of_eq g.size.symm⟩
    · obtain ⟨c, hc, hqc, hfree, hle⟩ := o.live q hq
      refine ⟨c, List.mem_append_left _ hc, hqc, ?_, ?_⟩
      · rw [g.other c hc _ (by decide), hfree]
      · rw [g.other c hc _ (by decide)]
        exact hle
  · rw [List.map_cons, List.nodup_cons]
    refine ⟨fun hmem' => ?_, o.liveOnce⟩
    obtain ⟨c, hc, hqc, -⟩ := o.live_block hmem'
    exact o.ne_new ha hc (by omega)
  · intro r hr
    rw [hmapped] at hr
    rcases List.mem_cons.mp hr with rfl | hr
    · exact ha.stop
    · exact o.bound r hr

/-! ## One step -/

/-- A step that changes bytes of one header only, in a call on its block. -/
theorem frame_of_header (o : Ordered p) {c : Call} {out : ℕ} (hb : b ∈ p.heap.created)
    (hbytes : ∀ x, p'.bytes x ≠ p.bytes x → b ≤ x ∧ x < b + blockSize)
    (hcall : ((∃ s answer, c = .malloc s answer) ∧ out = b + blockSize) ∨
      c = .free (b + blockSize)) : StepFrame p c out p' where
  headers d hd x hx₀ hx₁ hx := by
    rw [o.header_unique hd hb ⟨hx₀, hx₁⟩ (hbytes x hx)]
    exact hcall.imp_left fun h => ⟨h.1, Or.inl h.2⟩
  payloads d hd x hx₀ hx₁ hx := (o.header_ne_payload hb hd (hbytes x hx) hx₀ hx₁).elim

/-- The bytes that growing the heap changes: the new header, and the link of the
youngest block. -/
theorem grown_bytes (m : Memory) (h : Heap Memory) (last a s : ℕ) {x : ℕ}
    (hx : (grown h last a s m).mem.bytes x ≠ m.bytes x) :
    (a ≤ x ∧ x < a + blockSize) ∨ (last ≠ 0 ∧ last + 8 ≤ x ∧ x < last + 16) := by
  by_contra hout
  rw [not_or] at hout
  have hheader : (withHeader m a s 0 0).bytes x = m.bytes x := bytes_withHeader _ _ _ _ _ (by omega)
  apply hx
  rw [grown]
  by_cases hnull : last = 0
  · rw [if_pos hnull]
    exact hheader
  · rw [if_neg hnull]
    refine (bytes_set _ .next last a ?_).trans hheader
    have hwidth : Field.next.offset + Field.next.width = 16 := rfl
    have hoffset : Field.next.offset = 8 := rfl
    omega

/-- A call that grows the heap changes the new header and one link. -/
theorem frame_of_grown (o : Ordered p) {s a : ℕ} (ha : Fresh p.heap.mem ⟨a, s + blockSize⟩)
    (live' : List (ℕ × ℕ)) :
    StepFrame p (.malloc s (some a)) (a + blockSize)
      ⟨grown p.heap (p.heap.created.getLastD 0) a s
        (BlockStore.map p.heap.mem ⟨a, s + blockSize⟩), live'⟩ := by
  have hwidth : blockSize = 24 := rfl
  have houtside : ∀ d ∈ p.heap.created, ∀ x, d ≤ x →
      x < d + blockSize + get p.heap.mem .size d → ¬ (a ≤ x ∧ x < a + blockSize) := by
    intro d hd x hx₀ hx₁ hxa
    have hdisjoint := o.new_disjoint ha hd
    simp only [Extent.Disjoint, Extent.stop, extentOf] at hdisjoint
    omega
  constructor
  · intro d hd x hx₀ hx₁ hx
    rcases grown_bytes _ _ _ _ _ hx with hxa | ⟨-, hlink⟩
    · exact absurd hxa (houtside d hd x hx₀ (by omega))
    · obtain ⟨hmem, hlast⟩ := getLastD_of_mem hd
      have hdlast : d = p.heap.created.getLastD 0 :=
        o.header_unique hd hmem ⟨hx₀, hx₁⟩ (by omega)
      refine Or.inl ⟨⟨s, some a, rfl⟩, Or.inr ⟨?_, by rw [hdlast]; exact hlink, a, rfl, ?_⟩⟩
      · rw [hdlast, hlast]
      · exact grown_created _ _ _ _ _
  · intro d hd x hx₀ hx₁ hx
    rcases grown_bytes _ _ _ _ _ hx with hxa | ⟨-, hlink⟩
    · simp only [payloadOf, Extent.stop] at hx₀ hx₁
      exact absurd hxa (houtside d hd x (by omega) hx₁)
    · exact (o.header_ne_payload (getLastD_of_mem hd).1 hd (by omega) hx₀ hx₁).elim

theorem increment_eq {s : ℕ} (hs : s + blockSize ≤ 2 ^ 63 - 1) :
    increment s = ((s + blockSize : ℕ) : ℤ) := by
  rw [increment, Nat.mod_eq_of_lt (by omega), toInt64_of_range (by omega) (by omega)]

/-- **A request** for which `sbrk` is asked for a size that it can map, if it is asked.  It
is refused only if no free block fits and `sbrk` fails. -/
theorem malloc_of_fresh (o : Ordered p) (s : ℕ) (answer : Option ℕ)
    (hfresh : ∀ a, answer = some a → p.heap.created.foldl (pick p.heap.mem s) 0 = 0 →
      s + blockSize ≤ 2 ^ 63 - 1 ∧ Fresh p.heap.mem ⟨a, s + blockSize⟩) :
    ∃ p' out, perform p (.malloc s answer) = .ok (p', out) ∧ Ordered p' ∧
      StepFrame p (.malloc s answer) out p' ∧
      (out = 0 → p.heap.created.foldl (pick p.heap.mem s) 0 = 0 ∧ answer = none) := by
  by_cases hpick : p.heap.created.foldl (pick p.heap.mem s) 0 = 0
  · cases answer with
    | none =>
      have hcall : mymalloc (freshBytes none) p.heap s = .ok (p.heap, 0) :=
        mymalloc_fail o.blockChain hpick rfl
      refine ⟨p, 0, ?_, o, ⟨fun _ _ _ _ _ hx => absurd rfl hx,
        fun _ _ _ _ _ hx => absurd rfl hx⟩, fun _ => ⟨hpick, rfl⟩⟩
      rw [perform, hcall, ok_bind]
      rfl
    | some a =>
      obtain ⟨hs, ha⟩ := hfresh a rfl hpick
      have hsbrk : freshBytes (some a) p.heap.mem (increment s) =
          some (a, BlockStore.map p.heap.mem ⟨a, s + blockSize⟩) := by
        rw [increment_eq hs, freshBytes, Int.toNat_natCast]
        rfl
      have hheader : ∀ b ∈ p.heap.created,
          Header (BlockStore.map p.heap.mem ⟨a, s + blockSize⟩) b := fun b hb =>
        header_map _ (o.header hb)
      have hnew : Header (BlockStore.map p.heap.mem ⟨a, s + blockSize⟩) a := by
        refine header_of_within (r := ⟨a, s + blockSize⟩) List.mem_cons_self
          ⟨Nat.le_refl a, ?_⟩
        exact Nat.add_le_add_left (Nat.le_add_left _ _) a
      have hcall := mymalloc_grow o.blockChain hpick hsbrk hnew hheader
      have hpayload : payload a = a + blockSize := by
        have hstop : a + (s + blockSize) ≤ 2 ^ 63 := ha.stop
        exact payload_of_lt (by omega)
      have hpos : a + blockSize ≠ 0 := Nat.succ_ne_zero (a + 23)
      rw [hpayload] at hcall
      refine ⟨_, a + blockSize, ?_, o.grow ha, ?_, fun hnull => absurd hnull hpos⟩
      · rw [perform, hcall, ok_bind]
        dsimp only
        rw [if_neg hpos]
        rfl
      · exact o.frame_of_grown ha _
  · obtain ⟨hb, hfits, hcall⟩ := mymalloc_reuse o.blockChain (freshBytes answer) rfl hpick
    set b := p.heap.created.foldl (pick p.heap.mem s) 0 with hbdef
    have hpos : b + blockSize ≠ 0 := Nat.succ_ne_zero (b + 23)
    have hdead : b + blockSize ∉ p.live.map Prod.fst := by
      intro hmem
      obtain ⟨c, hc, hbc, hfree⟩ := o.live_block hmem
      have hcb : c = b := (Nat.add_right_cancel hbc).symm
      rw [hcb, hfits.2] at hfree
      cases hfree
    rw [o.payload_eq hb] at hcall
    refine ⟨⟨{ p.heap with mem := set p.heap.mem .free b 0 }, (b + blockSize, s) :: p.live⟩,
      b + blockSize, ?_, o.setFree hb (v := 0) (by decide) ?_ ?_, ?_,
      fun hnull => absurd hnull hpos⟩
    · rw [perform, hcall, ok_bind]
      dsimp only
      rw [if_neg hpos]
      rfl
    · intro q hq
      rcases List.mem_cons.mp hq with rfl | hq
      · exact Or.inr ⟨rfl, rfl, hfits.1⟩
      · exact Or.inl ⟨hq, fun hqb => hdead (hqb ▸ List.mem_map_of_mem hq)⟩
    · exact List.nodup_cons.mpr ⟨hdead, o.liveOnce⟩
    · exact o.frame_of_header hb (fun x hx => setFree_bytes hx)
        (Or.inl ⟨⟨s, answer, rfl⟩, rfl⟩)

theorem malloc (o : Ordered p) {s : ℕ} {answer : Option ℕ}
    (hallowed : (Call.malloc s answer).Allowed p) :
    ∃ p' out, perform p (.malloc s answer) = .ok (p', out) ∧ Ordered p' ∧
      StepFrame p (.malloc s answer) out p' := by
  obtain ⟨hs, hfresh⟩ := hallowed
  obtain ⟨p', out, hperform, ho, hframe, -⟩ :=
    o.malloc_of_fresh s answer fun a ha _ => ⟨hs, hfresh a ha⟩
  exact ⟨p', out, hperform, ho, hframe⟩

theorem free (o : Ordered p) {q : ℕ} (hallowed : (Call.free q).Allowed p) :
    ∃ p' out, perform p (.free q) = .ok (p', out) ∧ Ordered p' ∧
      StepFrame p (.free q) out p' := by
  have hkept : ∀ e ∈ p.live.filter fun e => e.1 ≠ q, e ∈ p.live ∧ e.1 ≠ q := fun e he =>
    ⟨(List.mem_filter.mp he).1, of_decide_eq_true (List.mem_filter.mp he).2⟩
  have honce : ((p.live.filter fun e => e.1 ≠ q).map Prod.fst).Nodup :=
    o.liveOnce.sublist (List.filter_sublist.map _)
  rcases hallowed with rfl | hq
  · refine ⟨⟨p.heap, p.live.filter fun e => e.1 ≠ 0⟩, 0, ?_, o.of_fields rfl rfl rfl
      (fun _ _ => rfl) (fun _ _ => rfl) (fun e he => o.live e (hkept e he).1) honce, ?_⟩
    · rw [perform, myfree_null]
      rfl
    · exact ⟨fun _ _ _ _ _ hx => absurd rfl hx, fun _ _ _ _ _ hx => absurd rfl hx⟩
  · obtain ⟨b, hb, rfl, hfree⟩ := o.live_block hq
    have hbound := o.extent_bound hb
    have hcall := myfree_live (by omega) (o.header hb) hfree
    refine ⟨_, 0, ?_, o.setFree hb (v := 1) (by decide) (fun e he => Or.inl (hkept e he)) honce,
      ?_⟩
    · rw [perform, hcall]
      rfl
    · exact o.frame_of_header hb (fun x hx => setFree_bytes hx) (Or.inr rfl)

/-- **Bytes of a live payload are written**: the order depends on the headers only. -/
theorem of_payload (o : Ordered p) {bytes : ℕ → UInt8}
    (hlive : b + blockSize ∈ p.live.map Prod.fst)
    (hbytes : ∀ x, x < (payloadOf p.heap.mem b).start ∨ (payloadOf p.heap.mem b).stop ≤ x →
      bytes x = p.bytes x) :
    Ordered ⟨{ p.heap with mem := { p.heap.mem with bytes := bytes } }, p.live⟩ := by
  have hb : b ∈ p.heap.created := by
    obtain ⟨c, hc, hbc, -⟩ := o.live_block hlive
    rwa [Nat.add_right_cancel hbc]
  have hfields : ∀ c ∈ p.heap.created, ∀ f,
      get ({ p.heap.mem with bytes := bytes } : Memory) f c = get p.heap.mem f c := by
    intro c hc f
    refine get_congr f fun y hy₀ hy₁ => hbytes y ?_
    by_contra hin
    exact o.header_ne_payload hc hb ⟨hy₀, hy₁⟩ (by omega) (by omega)
  refine o.of_fields rfl rfl rfl (fun c hc => hfields c hc _) (fun c hc => hfields c hc _)
    (fun q hq => ?_) o.liveOnce
  obtain ⟨c, hc, hqc, hfree, hle⟩ := o.live q hq
  exact ⟨c, hc, hqc, by rw [hfields c hc, hfree], hle⟩

theorem write (o : Ordered p) {x : ℕ} {v : UInt8} (hallowed : (Call.write x v).Allowed p) :
    ∃ p' out, perform p (.write x v) = .ok (p', out) ∧ Ordered p' ∧
      StepFrame p (.write x v) out p' := by
  obtain ⟨b, hlive, hx₀, hx₁⟩ := hallowed
  have hb : b ∈ p.heap.created := by
    obtain ⟨c, hc, hbc, -⟩ := o.live_block hlive
    rwa [Nat.add_right_cancel hbc]
  have hbytes : ∀ y, y ≠ x → Function.update p.bytes x v y = p.bytes y := fun y hy =>
    Function.update_of_ne hy _ _
  refine ⟨_, 0, rfl, o.of_payload hlive fun y hy => hbytes y (by omega), ?_⟩
  constructor
  · intro c hc y hy₀ hy₁ hy
    have hyx : y = x := by
      by_contra hne
      exact hy (hbytes y hne)
    exact (o.header_ne_payload hc hb ⟨hy₀, hy₁⟩ (hyx ▸ hx₀) (hyx ▸ hx₁)).elim
  · intro c _ y _ _ hy
    have hyx : y = x := by
      by_contra hne
      exact hy (hbytes y hne)
    exact ⟨v, by rw [hyx]⟩

/-- **Every step that is allowed can be made**, keeps the heap in order and changes no
more than it may. -/
theorem step (o : Ordered p) (c : Call) (hallowed : c.Allowed p) :
    ∃ p' out, perform p c = .ok (p', out) ∧ Ordered p' ∧ StepFrame p c out p' := by
  cases c with
  | malloc s answer => exact o.malloc hallowed
  | free q => exact o.free hallowed
  | write x v => exact o.write hallowed

theorem of_initial (h : Initial p) : Ordered p where
  chain := by
    rw [h.blockHead, h.created]
    rfl
  once := by
    rw [h.created]
    exact List.nodup_nil
  disjoint := by
    rw [h.created]
    exact List.Pairwise.nil
  inside b hb := by
    rw [h.created] at hb
    exact absurd hb List.not_mem_nil
  live q hq := by
    rw [h.live] at hq
    exact absurd hq List.not_mem_nil
  liveOnce := by
    rw [h.live]
    exact List.nodup_nil
  bound r hr := by
    rw [h.mapped] at hr
    exact absurd hr List.not_mem_nil

end Ordered

/-- **The heap over whole runs.**  In every state that a program reaches the heap is in
order, every step that is allowed there can be made, and it changes no byte of a live
payload or a header but those of its own block and the link of the youngest one. -/
theorem heap_invariant (p₀ p : Program) (h₀ : Initial p₀) (tr : List (Call × ℕ))
    (hrun : Run Step p₀ tr p) :
    HeapInvariant p ∧ (∀ c out p', Step p c out p' → StepFrame p c out p') ∧
      ∀ c : Call, c.Allowed p → ∃ out p', Step p c out p' := by
  have o : Ordered p := by
    refine hrun.invariant (P := Ordered) (fun q c out q' hq hs => ?_) (Ordered.of_initial h₀)
    obtain ⟨r, out', hperform, hr, -⟩ := hq.step c hs.1
    rw [hs.2, Except.ok.injEq, Prod.mk.injEq] at hperform
    rw [hperform.1]
    exact hr
  refine ⟨o.toHeapInvariant, fun c out p' hs => ?_, fun c hallowed => ?_⟩
  · obtain ⟨r, out', hperform, -, hframe⟩ := o.step c hs.1
    rw [hs.2, Except.ok.injEq, Prod.mk.injEq] at hperform
    rw [hperform.1, hperform.2]
    exact hframe
  · obtain ⟨r, out, hperform, -, -⟩ := o.step c hallowed
    exact ⟨out, r, hallowed, hperform⟩

/-! ## Two blocks -/

/-- A program before its first call, in a memory of zeros. -/
def emptyProgram : Program := ⟨⟨⟨fun _ => 0, []⟩, 0, []⟩, []⟩

theorem initial_emptyProgram : Initial emptyProgram := ⟨rfl, rfl, rfl, rfl⟩

/-- A program that gets two blocks, writes to the first, frees it and gets it back for
a smaller request. -/
def reuseTrace : List (Call × ℕ) :=
  [(.malloc 8 (some 4096), 4120), (.malloc 8 (some 8192), 8216), (.write 4121 7, 0),
   (.free 4120, 0), (.malloc 4 none, 4120)]

theorem run_reuseTrace :
    ∃ p, Run Step emptyProgram reuseTrace p ∧ p.live = [(4120, 4), (8216, 8)] := by
  refine ⟨_, Run.cons ⟨?_, rfl⟩ (Run.cons ⟨?_, rfl⟩ (Run.cons ⟨?_, rfl⟩ (Run.cons ⟨?_, rfl⟩
    (Run.cons ⟨?_, rfl⟩ (Run.nil _))))), rfl⟩
  · refine ⟨by decide, fun a ha => ?_⟩
    rw [← Option.some.inj ha]
    exact ⟨by decide, by decide, fun r hr => absurd hr List.not_mem_nil⟩
  · refine ⟨by decide, fun a ha => ?_⟩
    rw [← Option.some.inj ha]
    refine ⟨by decide, by decide, fun r hr => ?_⟩
    rw [List.mem_singleton.mp hr]
    decide
  · exact ⟨4096, by decide, by decide, by decide⟩
  · exact Or.inr (by decide)
  · exact ⟨by decide, fun a ha => nomatch ha⟩

/-- The heap of this program is in order. -/
theorem heap_invariant_reuse :
    ∃ p, p.live = [(4120, 4), (8216, 8)] ∧ HeapInvariant p := by
  obtain ⟨p, hrun, hlive⟩ := run_reuseTrace
  exact ⟨p, hlive, (heap_invariant emptyProgram p initial_emptyProgram reuseTrace hrun).1⟩

/-- **A header that a call on another block changes.**  The second block is linked in
behind the first one, whose owner made no call. -/
theorem not_headers_untouched :
    ∃ p p', Initial emptyProgram ∧
      Run Step emptyProgram [(.malloc 8 (some 4096), 4120)] p ∧
      Step p (.malloc 8 (some 8192)) 8216 p' ∧ 4096 ∈ p.heap.created ∧
      (4096 ≤ 4105 ∧ 4105 < 4096 + blockSize) ∧ 8216 ≠ 4096 + blockSize ∧
      p'.bytes 4105 ≠ p.bytes 4105 := by
  refine ⟨_, _, initial_emptyProgram, Run.cons ⟨?_, rfl⟩ (Run.nil _), ⟨?_, rfl⟩, ?_, by decide,
    by decide, by decide⟩
  · refine ⟨by decide, fun a ha => ?_⟩
    rw [← Option.some.inj ha]
    exact ⟨by decide, by decide, fun r hr => absurd hr List.not_mem_nil⟩
  · refine ⟨by decide, fun a ha => ?_⟩
    rw [← Option.some.inj ha]
    refine ⟨by decide, by decide, fun r hr => ?_⟩
    rw [List.mem_singleton.mp hr]
    decide
  · exact List.mem_singleton_self _

end MemoryAllocator1
end SystemsProjects

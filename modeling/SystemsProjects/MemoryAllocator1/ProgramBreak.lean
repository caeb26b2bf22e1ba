import SystemsProjects.MemoryAllocator1.HeapInvariant

/-!
# The size arithmetic of `mymalloc`

`extendMemory` asks `sbrk` for `s + BLOCK_SIZE` bytes.  The sum is taken modulo `2 ^ 64`, and
`sbrk` reads it as a signed number: from `s + BLOCK_SIZE = 2 ^ 63` on, the break moves down, or
stays where it is, or moves up by less than a header.  The header still says `s`.

Here the operating system is the program break.  `sbrk` moves it by exactly the increment or
fails, and the memory up to the end of the page of the break can be accessed, so that a header
behind the break need not fault.

While all requests that `sbrk` grants are small enough, a run is one of `HeapInvariant`, with
the parts that the break has passed over as its regions (`Simulated`).  `reserves_iff` is about
one more call: it reserves the memory for its pointer if and only if its size is small enough
as well.
-/

namespace SystemsProjects
namespace MemoryAllocator1

open Lib Allocator BlockStore

/-! ## The break -/

/-- The heap segment from `start` to the break, and other regions.  `granted` is a history
variable, the parts of the heap that calls of `mymalloc` have got from `sbrk`. -/
structure BreakMemory where
  bytes : ℕ → UInt8
  mapped : List Extent
  start : ℕ
  brk : ℕ
  granted : List Extent

/-- The end of the page that the last byte in front of the break lies in. -/
def pageEnd (brk : ℕ) : ℕ := (brk + 4095) / 4096 * 4096

theorem le_pageEnd (brk : ℕ) : brk ≤ pageEnd brk := by
  unfold pageEnd
  omega

namespace BreakMemory

/-- The byte at `x` can be accessed. -/
def IsMapped (m : BreakMemory) (x : ℕ) : Prop :=
  (m.start ≤ x ∧ x < pageEnd m.brk) ∨ ∃ r ∈ m.mapped, r.start ≤ x ∧ x < r.stop

instance (m : BreakMemory) (x : ℕ) : Decidable (m.IsMapped x) :=
  inferInstanceAs (Decidable (_ ∨ ∃ r ∈ m.mapped, _))

/-- All of the `n` bytes at `a` are mapped. -/
def Accessible (m : BreakMemory) (a n : ℕ) : Prop := ∀ i < n, m.IsMapped (a + i)

instance (m : BreakMemory) (a n : ℕ) : Decidable (m.Accessible a n) :=
  inferInstanceAs (Decidable (∀ i < n, _))

/-- The memory after an object has been written. -/
def write (m : BreakMemory) (a n v : ℕ) : BreakMemory := { m with bytes := put m.bytes a n v }

end BreakMemory

/-- Blocks as bytes of a memory with a break. -/
instance : BlockStore BreakMemory where
  load m f b :=
    if m.Accessible (b + f.offset) f.width then pure (value m.bytes (b + f.offset) f.width)
    else .error .segfault
  store m f b v :=
    if m.Accessible (b + f.offset) f.width then pure (m.write (b + f.offset) f.width v)
    else .error .segfault
  map m e := { m with mapped := e :: m.mapped }
  regions := BreakMemory.mapped
  get m f b := value m.bytes (b + f.offset) f.width
  set m f b v := m.write (b + f.offset) f.width v
  Header m b := m.Accessible b blockSize
  Apart := Apart Memory
  load_eq f h := if_pos (f.forall_bytes h)
  store_eq f v h := if_pos (f.forall_bytes h)
  get_set_self m f b v := value_put_self _ _ _
  get_set_of_ne m f g b v h := get_set_of_ne (⟨m.bytes, m.mapped⟩ : Memory) b v h
  get_set_of_apart m b c f g v h := get_set_of_apart (⟨m.bytes, m.mapped⟩ : Memory) f g v h
  header_set {m} f b v {c} h := h
  regions_set m f b v := rfl
  get_map m e f b := rfl
  header_map {m} e b h := fun i hi => (h i hi).imp_right fun ⟨r, hr, hin⟩ =>
    ⟨r, List.mem_cons_of_mem e hr, hin⟩
  regions_map m e := rfl
  header_of_within {m b r} hr h := by
    intro i hi
    obtain ⟨h₀, h₁⟩ := h
    have hstop : b + blockSize ≤ r.stop := h₁
    have hstart : r.start ≤ b := h₀
    exact Or.inr ⟨r, hr, by omega, by omega⟩
  apart_symm h := apart_symm h
  apart_of_disjoint h := apart_of_disjoint h

/-- **`sbrk`** moves the break by exactly the increment, or fails. -/
def moveBreak (grants : Bool) : Sbrk BreakMemory := fun m n =>
  if grants ∧ (m.start : ℤ) ≤ m.brk + n ∧ m.brk + n ≤ 2 ^ 63 then
    some (m.brk, { m with
      brk := (m.brk + n).toNat
      granted := ⟨m.brk, n.toNat⟩ :: m.granted })
  else none

/-! ## Programs -/

/-- The heap, and the live pointers with the sizes that were asked for. -/
structure BreakProgram where
  heap : Heap BreakMemory
  live : List (ℕ × ℕ)

/-- A step: a call, the write of a byte, or an `sbrk` of another part of the program. -/
inductive BreakCall where
  | malloc (s : ℕ) (grants : Bool)
  | free (q : ℕ)
  | write (x : ℕ) (v : UInt8)
  | otherBreak (n : ℕ)
  deriving DecidableEq

/-- What the program may do. -/
def BreakCall.Allowed (p : BreakProgram) : BreakCall → Prop
  | .malloc s _ => s < 2 ^ 64
  | .free q => q = 0 ∨ q ∈ p.live.map Prod.fst
  | .write x _ => ∃ e ∈ p.live, e.1 ≤ x ∧ x < e.1 + e.2
  | .otherBreak n => p.heap.mem.brk + n ≤ 2 ^ 63

/-- The step, with the pointer that is returned. -/
def performBreak (p : BreakProgram) : BreakCall → Except Stop (BreakProgram × ℕ)
  | .malloc s grants => do
      let (h, q) ← mymalloc (moveBreak grants) p.heap s
      pure (⟨h, if q = 0 then p.live else (q, s) :: p.live⟩, q)
  | .free q => do
      let h ← myfree p.heap q
      pure (⟨h, p.live.filter fun e => e.1 ≠ q⟩, 0)
  | .write x v =>
      pure (⟨{ p.heap with
        mem := { p.heap.mem with bytes := Function.update p.heap.mem.bytes x v } }, p.live⟩, 0)
  | .otherBreak n =>
      pure (⟨{ p.heap with mem := { p.heap.mem with brk := p.heap.mem.brk + n } }, p.live⟩, 0)

/-- A call that is allowed, and returns. -/
def BreakStep (p : BreakProgram) (c : BreakCall) (out : ℕ) (p' : BreakProgram) : Prop :=
  c.Allowed p ∧ performBreak p c = .ok (p', out)

/-- Before the first call. -/
structure BreakInitial (p : BreakProgram) : Prop where
  blockHead : p.heap.blockHead = 0
  created : p.heap.created = []
  granted : p.heap.mem.granted = []
  live : p.live = []
  pos : 0 < p.heap.mem.start
  start_le : p.heap.mem.start ≤ p.heap.mem.brk
  brk_le : p.heap.mem.brk ≤ 2 ^ 63

/-- **The size is small enough**, if `sbrk` grants it. -/
def SizeFits (_ : BreakProgram) : BreakCall → Prop
  | .malloc s grants => grants = true → s + blockSize ≤ 2 ^ 63 - 1
  | _ => True

/-- **What a pointer of `mymalloc` promises**: there is room for `s` bytes in front of the break,
which no other block has, and the break is not below a live block. -/
structure Reserves (p : BreakProgram) (q s : ℕ) : Prop where
  room : ∃ b ∈ p.heap.created, q = b + blockSize ∧ s ≤ get p.heap.mem .size b ∧
    p.heap.mem.start ≤ b ∧ q + s ≤ p.heap.mem.brk ∧
    ∀ c ∈ p.heap.created, c ≠ b →
      (⟨q, s⟩ : Extent).Disjoint ⟨c, blockSize + get p.heap.mem .size c⟩
  below : ∀ e ∈ p.live, e.1 + e.2 ≤ p.heap.mem.brk

/-! ## A run as one of `HeapInvariant` -/

/-- The bytes, with the granted parts of the heap as the regions. -/
def BreakMemory.plain (m : BreakMemory) : Memory := ⟨m.bytes, m.granted⟩

/-- The heap without its break. -/
def plainHeap (h : Heap BreakMemory) : Heap Memory := ⟨h.mem.plain, h.blockHead, h.created⟩

/-- The program without the break of its heap. -/
def BreakProgram.plain (p : BreakProgram) : Program := ⟨plainHeap p.heap, p.live⟩

/-- The heap is in order, and the granted parts lie in front of the break. -/
structure Simulated (p : BreakProgram) : Prop where
  ordered : Ordered p.plain
  granted : ∀ r ∈ p.heap.mem.granted, p.heap.mem.start ≤ r.start ∧ r.stop ≤ p.heap.mem.brk
  pos : 0 < p.heap.mem.start
  start_le : p.heap.mem.start ≤ p.heap.mem.brk
  brk_le : p.heap.mem.brk ≤ 2 ^ 63

theorem plain_grown (h : Heap BreakMemory) (last a s : ℕ) (m : BreakMemory) :
    plainHeap (grown h last a s m) = grown (plainHeap h) last a s m.plain := by
  unfold grown
  split
  · rfl
  · rfl

/-- A new header moves no break. -/
theorem grown_break (h : Heap BreakMemory) (last a s : ℕ) (m : BreakMemory) :
    (grown h last a s m).mem.start = m.start ∧ (grown h last a s m).mem.brk = m.brk ∧
      (grown h last a s m).mem.granted = m.granted := by
  unfold grown
  split
  · exact ⟨rfl, rfl, rfl⟩
  · exact ⟨rfl, rfl, rfl⟩

/-- The break has moved by `n`, and the part in front of it is granted. -/
def BreakMemory.extended (m : BreakMemory) (n : ℕ) : BreakMemory :=
  { m with
    brk := m.brk + n
    granted := ⟨m.brk, n⟩ :: m.granted }

/-- The increment of a small size. -/
theorem moveBreak_eq {m : BreakMemory} {s : ℕ} {grants : Bool}
    (hs : grants = true → s + blockSize ≤ 2 ^ 63 - 1) (hstart : m.start ≤ m.brk) :
    moveBreak grants m (increment s) =
      if grants ∧ m.brk + (s + blockSize) ≤ 2 ^ 63 then
        some (m.brk, m.extended (s + blockSize))
      else none := by
  unfold moveBreak
  by_cases hgrants : grants = true
  · have hincrement : increment s = ((s + blockSize : ℕ) : ℤ) := Ordered.increment_eq (hs hgrants)
    have hsum : (m.brk : ℤ) + ((s + blockSize : ℕ) : ℤ) = ((m.brk + (s + blockSize) : ℕ) : ℤ) :=
      (Nat.cast_add _ _).symm
    rw [hincrement, hsum, Int.toNat_natCast, Int.toNat_natCast]
    by_cases hle : m.brk + (s + blockSize) ≤ 2 ^ 63
    · rw [if_pos ⟨hgrants, by omega, by exact_mod_cast hle⟩, if_pos ⟨hgrants, hle⟩]
      rfl
    · rw [if_neg fun h => hle (by exact_mod_cast h.2.2), if_neg fun h => hle h.2]
  · rw [if_neg fun h => hgrants h.1, if_neg fun h => hgrants h.1]

/-- A small request of `HeapInvariant`. -/
theorem freshBytes_eq {s : ℕ} (m : Memory) (a : ℕ) (hs : s + blockSize ≤ 2 ^ 63 - 1) :
    freshBytes (some a) m (increment s) = some (a, BlockStore.map m ⟨a, s + blockSize⟩) := by
  unfold freshBytes
  rw [Ordered.increment_eq hs, Int.toNat_natCast]
  rfl

namespace Simulated

variable {p p' : BreakProgram} {b s q out : ℕ} {grants : Bool}

theorem of_initial (h : BreakInitial p) : Simulated p where
  ordered := Ordered.of_initial ⟨h.blockHead, h.created, h.granted, h.live⟩
  granted r hr := by
    rw [h.granted] at hr
    exact absurd hr List.not_mem_nil
  pos := h.pos
  start_le := h.start_le
  brk_le := h.brk_le

/-- The extent of a block lies in front of the break. -/
theorem extent_le (k : Simulated p) (hb : b ∈ p.heap.created) :
    p.heap.mem.start ≤ b ∧ b + (blockSize + get p.heap.mem .size b) ≤ p.heap.mem.brk := by
  obtain ⟨r, hr, h₀, h₁⟩ := k.ordered.inside b hb
  obtain ⟨hstart, hstop⟩ := k.granted r hr
  exact ⟨hstart.trans h₀, (Nat.le_trans h₁ hstop :)⟩

theorem header (k : Simulated p) (hb : b ∈ p.heap.created) : Header p.heap.mem b := by
  obtain ⟨hstart, hstop⟩ := k.extent_le hb
  have hpage := le_pageEnd p.heap.mem.brk
  exact fun i hi => Or.inl ⟨by omega, by omega⟩

theorem blockChain (k : Simulated p) :
    BlockChain p.heap.mem p.heap.blockHead p.heap.created where
  visits := k.ordered.chain
  header _ hb := k.header hb
  lt := k.ordered.blockChain.lt

/-- A block that fits leaves room for its header. -/
theorem size_of_fits (k : Simulated p) (hb : b ∈ p.heap.created) (hfits : Fits p.heap.mem s b) :
    s + blockSize ≤ 2 ^ 63 - 1 := by
  obtain ⟨hstart, hstop⟩ := k.extent_le hb
  have hpos := k.pos
  have hbrk := k.brk_le
  have hle := hfits.1
  omega

/-- The part that a small request gets is a fresh region. -/
theorem fresh (k : Simulated p) (hle : p.heap.mem.brk + (s + blockSize) ≤ 2 ^ 63) :
    Fresh p.plain.heap.mem ⟨p.heap.mem.brk, s + blockSize⟩ where
  pos := k.pos.trans_le k.start_le
  stop := hle
  disjoint r hr := Or.inr (k.granted r hr).2

/-- The old headers and the new one can be accessed when the break has moved. -/
theorem header_extended (k : Simulated p) (s : ℕ) :
    Header (p.heap.mem.extended (s + blockSize)) p.heap.mem.brk ∧
      ∀ b ∈ p.heap.created, Header (p.heap.mem.extended (s + blockSize)) b := by
  have hpage := le_pageEnd (p.heap.mem.brk + (s + blockSize))
  refine ⟨fun i hi => Or.inl ⟨Nat.le_add_right_of_le k.start_le, ?_⟩, fun b hb i hi => ?_⟩
  · show p.heap.mem.brk + i < pageEnd (p.heap.mem.brk + (s + blockSize))
    omega
  · obtain ⟨hb₀, hb₁⟩ := k.extent_le hb
    refine Or.inl ⟨Nat.le_add_right_of_le hb₀, ?_⟩
    show b + i < pageEnd (p.heap.mem.brk + (s + blockSize))
    omega

/-- The block that is made in front of the new break is one that is made in a fresh region. -/
theorem plain_grow (k : Simulated p) (hpick : p.heap.created.foldl (pick p.heap.mem s) 0 = 0)
    (hs : s + blockSize ≤ 2 ^ 63 - 1) :
    mymalloc (freshBytes (some p.heap.mem.brk)) p.plain.heap s =
      .ok (plainHeap (grown p.heap (p.heap.created.getLastD 0) p.heap.mem.brk s
        (p.heap.mem.extended (s + blockSize))), payload p.heap.mem.brk) := by
  have hheader : Header (BlockStore.map p.plain.heap.mem ⟨p.heap.mem.brk, s + blockSize⟩)
      p.heap.mem.brk :=
    header_of_within (r := ⟨p.heap.mem.brk, s + blockSize⟩) List.mem_cons_self
      ⟨Nat.le_refl _, Nat.add_le_add_left (Nat.le_add_left _ _) _⟩
  rw [mymalloc_grow k.ordered.blockChain hpick (freshBytes_eq _ p.heap.mem.brk hs) hheader
    fun b hb => header_map _ (k.ordered.header hb), plain_grown]
  rfl

/-- **A call of `mymalloc` with a small size**: it is a call in the plain memory, where `sbrk`
answers with a fresh region. -/
theorem plain_malloc (k : Simulated p) (hs : grants = true → s + blockSize ≤ 2 ^ 63 - 1)
    (hcall : performBreak p (.malloc s grants) = .ok (p', out)) :
    (p' = p ∧ out = 0) ∨ ∃ answer, (Call.malloc s answer).Allowed p.plain ∧
      perform p.plain (.malloc s answer) = .ok (p'.plain, out) ∧
      p'.heap.mem.start = p.heap.mem.start ∧ p.heap.mem.brk ≤ p'.heap.mem.brk ∧
      p'.heap.mem.brk ≤ 2 ^ 63 ∧
      ∀ r ∈ p'.heap.mem.granted, r ∈ p.heap.mem.granted ∨
        (r.start = p.heap.mem.brk ∧ r.stop = p'.heap.mem.brk) := by
  obtain ⟨⟨h', q⟩, hmalloc, hcall⟩ := bind_eq_ok.mp hcall
  cases hcall
  have hsbrk := moveBreak_eq (m := p.heap.mem) hs k.start_le
  by_cases hpick : p.heap.created.foldl (pick p.heap.mem s) 0 = 0
  · by_cases hgrant : grants ∧ p.heap.mem.brk + (s + blockSize) ≤ 2 ^ 63
    · -- a block is made in front of the new break
      rw [if_pos hgrant] at hsbrk
      have hsmall := hs hgrant.1
      obtain ⟨hnew, hkept⟩ := k.header_extended s
      rw [mymalloc_grow k.blockChain hpick hsbrk hnew hkept] at hmalloc
      cases hmalloc
      obtain ⟨hstart', hbrk', hgranted'⟩ := grown_break p.heap
        (p.heap.created.getLastD 0) p.heap.mem.brk s (p.heap.mem.extended (s + blockSize))
      refine Or.inr ⟨some p.heap.mem.brk, ⟨hsmall, fun a ha => ?_⟩, ?_, hstart', ?_, ?_,
        fun r hr => ?_⟩
      · rw [← Option.some.inj ha]
        exact k.fresh hgrant.2
      · rw [perform, k.plain_grow hpick hsmall]
        rfl
      · exact hbrk'.symm ▸ Nat.le_add_right _ _
      · exact hbrk'.symm ▸ hgrant.2
      · rw [hgranted'] at hr
        rw [hbrk']
        rcases List.mem_cons.mp hr with rfl | hr
        · exact Or.inr ⟨rfl, rfl⟩
        · exact Or.inl hr
    · -- `sbrk` fails
      rw [if_neg hgrant] at hsbrk
      rw [mymalloc_fail k.blockChain hpick hsbrk] at hmalloc
      cases hmalloc
      exact Or.inl ⟨rfl, rfl⟩
  · -- a free block is taken
    obtain ⟨hb, hfits, hreuse⟩ := mymalloc_reuse k.blockChain (moveBreak grants) rfl hpick
    rw [hreuse] at hmalloc
    cases hmalloc
    have hsmall := k.size_of_fits hb hfits
    refine Or.inr ⟨none, ⟨hsmall, fun a ha => by cases ha⟩, ?_, rfl, Nat.le_refl _, k.brk_le,
      fun r hr => Or.inl hr⟩
    obtain ⟨-, -, hplain⟩ := mymalloc_reuse k.ordered.blockChain (freshBytes none) rfl hpick
    rw [perform, hplain]
    rfl

/-- **A call of `myfree`** is a call in the plain memory, and leaves the break alone. -/
theorem plain_free (k : Simulated p) (hallowed : (BreakCall.free q).Allowed p)
    (hcall : performBreak p (.free q) = .ok (p', out)) :
    perform p.plain (.free q) = .ok (p'.plain, out) ∧
      p'.heap.mem.start = p.heap.mem.start ∧ p'.heap.mem.brk = p.heap.mem.brk ∧
      p'.heap.mem.granted = p.heap.mem.granted := by
  obtain ⟨h', hfree, hcall⟩ := bind_eq_ok.mp hcall
  cases hcall
  rcases hallowed with rfl | hq
  · rw [myfree_null] at hfree
    cases hfree
    rw [perform, myfree_null]
    exact ⟨rfl, rfl, rfl, rfl⟩
  · obtain ⟨b, hb, rfl, hmark⟩ := k.ordered.live_block hq
    have hbound := k.ordered.extent_bound hb
    rw [myfree_live (by omega) (k.header hb) hmark] at hfree
    cases hfree
    rw [perform, myfree_live (by omega) (k.ordered.header hb) hmark]
    exact ⟨rfl, rfl, rfl, rfl⟩

/-- **One step with a small size.** -/
theorem step (k : Simulated p) {c : BreakCall} (hstep : BreakStep p c out p')
    (hfits : SizeFits p c) : Simulated p' := by
  obtain ⟨hallowed, hcall⟩ := hstep
  cases c with
  | malloc s grants =>
    rcases k.plain_malloc hfits hcall with ⟨rfl, -⟩ |
      ⟨answer, hmalloc, hplain, hstart, hle, hbound, hgranted⟩
    · exact k
    · obtain ⟨r, out', hperform, ho, -⟩ := k.ordered.malloc hmalloc
      rw [hplain, Except.ok.injEq, Prod.mk.injEq] at hperform
      refine ⟨hperform.1 ▸ ho, fun r hr => ?_, hstart ▸ k.pos, hstart ▸ k.start_le.trans hle,
        hbound⟩
      rw [hstart]
      rcases hgranted r hr with hr | ⟨h₀, h₁⟩
      · exact ⟨(k.granted r hr).1, (k.granted r hr).2.trans hle⟩
      · exact ⟨h₀ ▸ k.start_le, h₁.le⟩
  | free q =>
    obtain ⟨hplain, hstart, hbrk, hgranted⟩ := k.plain_free hallowed hcall
    obtain ⟨r, out', hperform, ho, -⟩ := k.ordered.free hallowed
    rw [hplain, Except.ok.injEq, Prod.mk.injEq] at hperform
    refine ⟨hperform.1 ▸ ho, ?_, hstart ▸ k.pos, ?_, hbrk ▸ k.brk_le⟩
    · rw [hstart, hbrk, hgranted]
      exact k.granted
    · rw [hstart, hbrk]
      exact k.start_le
  | write x v =>
    obtain ⟨e, he, hx₀, hx₁⟩ := hallowed
    obtain ⟨b, hb, heb, -, hle⟩ := k.ordered.live e he
    have hlive : b + blockSize ∈ p.live.map Prod.fst := heb ▸ List.mem_map_of_mem he
    have hallowed : (Call.write x v).Allowed p.plain := by
      refine ⟨b, hlive, ?_, ?_⟩
      · show b + blockSize ≤ x
        omega
      · show x < b + blockSize + get p.plain.heap.mem .size b
        omega
    obtain ⟨r, out', hperform, ho, -⟩ := k.ordered.write hallowed
    cases hcall
    cases hperform
    exact ⟨ho, k.granted, k.pos, k.start_le, k.brk_le⟩
  | otherBreak n =>
    cases hcall
    exact ⟨k.ordered, fun r hr => ⟨(k.granted r hr).1, Nat.le_add_right_of_le (k.granted r hr).2⟩,
      k.pos, Nat.le_add_right_of_le k.start_le, hallowed⟩

/-- **A pointer for a small size** keeps its promise. -/
theorem reserves (k : Simulated p) (hstep : BreakStep p (.malloc s grants) out p')
    (hs : s + blockSize ≤ 2 ^ 63 - 1) (hout : out ≠ 0) : Reserves p' out s := by
  have k' := k.step hstep fun _ => hs
  have hlive : (out, s) ∈ p'.live := by
    obtain ⟨⟨h', q⟩, -, hcall⟩ := bind_eq_ok.mp hstep.2
    cases hcall
    rw [if_neg hout]
    exact List.mem_cons_self
  constructor
  · obtain ⟨b, hb, hout, -, hle⟩ := k'.ordered.live (out, s) hlive
    obtain ⟨hstart, hstop⟩ := k'.extent_le hb
    have hout : out = b + blockSize := hout
    have hle : s ≤ get p'.heap.mem .size b := hle
    refine ⟨b, hb, hout, hle, hstart, by omega, fun c hc hcb => ?_⟩
    refine (k'.ordered.extents_disjoint hb hc hcb.symm).of_within
      (⟨?_, ?_⟩ : Extent.Within ⟨out, s⟩ _) ⟨Nat.le_refl _, Nat.le_refl _⟩
    · show b ≤ out
      omega
    · show out + s ≤ b + (blockSize + get p'.heap.mem .size b)
      omega
  · intro e he
    obtain ⟨b, hb, heb, -, hle⟩ := k'.ordered.live e he
    obtain ⟨-, hstop⟩ := k'.extent_le hb
    have hle : e.2 ≤ get p'.heap.mem .size b := hle
    omega

end Simulated

/-! ## A size that is too large -/

/-- A store moves no break. -/
theorem brk_store {m m' : BreakMemory} {f : Field} {b v : ℕ} (h : store m f b v = .ok m') :
    m'.brk = m.brk := by
  change (if m.Accessible (b + f.offset) f.width then _ else _) = _ at h
  split at h
  · cases h
    rfl
  · cases h

/-- A new block starts where `sbrk` has said, whatever its size. -/
theorem extendMemory_brk {h h' : Heap BreakMemory} {sbrk : Sbrk BreakMemory} {s a q : ℕ}
    {m : BreakMemory} (hsbrk : sbrk h.mem (increment s) = some (a, m))
    (hcall : extendMemory sbrk h s = .ok (h', q)) : q = payload a ∧ h'.mem.brk = m.brk := by
  unfold extendMemory at hcall
  obtain ⟨last, -, hcall⟩ := bind_eq_ok.mp hcall
  rw [hsbrk] at hcall
  obtain ⟨m₁, hsize, hcall⟩ := bind_eq_ok.mp hcall
  obtain ⟨m₂, hnext, hcall⟩ := bind_eq_ok.mp hcall
  obtain ⟨m₃, hfree, hcall⟩ := bind_eq_ok.mp hcall
  have hbrk : m₃.brk = m.brk := (brk_store hfree).trans ((brk_store hnext).trans (brk_store hsize))
  by_cases hlast : last = 0
  · rw [if_pos hlast] at hcall
    cases hcall
    exact ⟨rfl, hbrk⟩
  · rw [if_neg hlast] at hcall
    obtain ⟨m₄, hlink, hcall⟩ := bind_eq_ok.mp hcall
    cases hcall
    exact ⟨rfl, (brk_store hlink).trans hbrk⟩

/-- **The increment of a size that is too large** is less than what the header needs. -/
theorem increment_of_large {s : ℕ} (hs : 2 ^ 63 - 1 < s + blockSize) (hs64 : s < 2 ^ 64) :
    increment s = (s : ℤ) + blockSize - 2 ^ 64 := by
  unfold increment toInt64
  simp only [blockSize] at hs ⊢
  rw [Int.bmod_def]
  split
  · omega
  · omega

theorem not_reserves_of_large {p p' : BreakProgram} {s out : ℕ} {grants : Bool}
    (k : Simulated p) (hstep : BreakStep p (.malloc s grants) out p')
    (hs : 2 ^ 63 - 1 < s + blockSize) (hout : out ≠ 0) : ¬ Reserves p' out s := by
  rintro ⟨⟨b, -, -, -, -, hroom, -⟩, -⟩
  obtain ⟨hs64, hcall⟩ := hstep
  obtain ⟨⟨h', q⟩, hmalloc, hcall⟩ := bind_eq_ok.mp hcall
  cases hcall
  have hs64 : s < 2 ^ 64 := hs64
  by_cases hpick : p.heap.created.foldl (pick p.heap.mem s) 0 = 0
  · rw [mymalloc, findOptimalFreeBlock_eq k.blockChain, ok_bind, hpick,
      if_neg fun hc => hc rfl] at hmalloc
    rcases hsbrk : moveBreak grants p.heap.mem (increment s) with _ | ⟨a, m⟩
    · rw [extendMemory, getLastBlock_eq k.blockChain, ok_bind, hsbrk] at hmalloc
      cases hmalloc
      exact hout rfl
    · obtain ⟨hq, hbrk⟩ := extendMemory_brk hsbrk hmalloc
      unfold moveBreak at hsbrk
      split at hsbrk
      · cases hsbrk
        have hle := k.brk_le
        have hincrement := increment_of_large hs hs64
        have hblock : p.heap.mem.brk + blockSize < 2 ^ 64 := by
          simp only [blockSize]
          omega
        rw [payload_of_lt hblock] at hq
        dsimp only at hbrk hroom
        rw [hbrk, hq] at hroom
        omega
      · cases hsbrk
  · obtain ⟨hb, hfits, -⟩ := mymalloc_reuse k.blockChain (moveBreak grants) rfl hpick
    have hsmall := k.size_of_fits hb hfits
    omega

/-- **The pointers of `mymalloc`.**  In a run in which every size that `sbrk` has granted was
small enough, a call that returns a pointer reserves the memory for it, in front of the break and
of no other block, and leaves no live block behind the break, if and only if its size is small
enough too. -/
theorem reserves_iff (p₀ p p' : BreakProgram) (h₀ : BreakInitial p₀)
    (tr : List (BreakCall × ℕ)) (hrun : Run (Guarded SizeFits BreakStep) p₀ tr p) (s : ℕ)
    (grants : Bool) (out : ℕ) (hstep : BreakStep p (.malloc s grants) out p') (hout : out ≠ 0) :
    Reserves p' out s ↔ s + blockSize ≤ 2 ^ 63 - 1 := by
  have k : Simulated p := hrun.invariant (P := Simulated) (fun _ _ _ _ k hs => k.step hs.2 hs.1)
    (Simulated.of_initial h₀)
  constructor
  · intro hreserves
    by_contra hs
    exact not_reserves_of_large k hstep (Nat.lt_of_not_le hs) hout hreserves
  · exact fun hs => k.reserves hstep hs hout

/-! ## Runs of a few calls -/

/-- A program before its first call, with an empty heap segment. -/
def newProgram : BreakProgram := ⟨⟨⟨fun _ => 0, [], 4096, 4096, []⟩, 0, []⟩, []⟩

theorem breakInitial_newProgram : BreakInitial newProgram :=
  ⟨rfl, rfl, rfl, rfl, by decide, by decide, by decide⟩

/-- Two blocks, the first of them freed, and a request that `sbrk` refuses. -/
theorem run_freed : ∃ p, Run (Guarded SizeFits BreakStep) newProgram
    [(.malloc 8 true, 4120), (.malloc 16 true, 4152), (.free 4120, 0), (.malloc 100 false, 0)] p ∧
      ∃ p', BreakStep p (.malloc 5 false) 4120 p' :=
  ⟨_, Run.cons ⟨fun _ => by decide, show 8 < 2 ^ 64 by decide, rfl⟩
    (Run.cons ⟨fun _ => by decide, show 16 < 2 ^ 64 by decide, rfl⟩
      (Run.cons ⟨trivial, Or.inr (by decide), rfl⟩
        (Run.cons ⟨fun h => (by cases h), show 100 < 2 ^ 64 by decide, rfl⟩ (Run.nil _)))),
    _, show 5 < 2 ^ 64 by decide, rfl⟩

/-- The freed block of 8 bytes has room for 5 bytes. -/
theorem reserves_freed : ∃ p p', Run (Guarded SizeFits BreakStep) newProgram
    [(.malloc 8 true, 4120), (.malloc 16 true, 4152), (.free 4120, 0), (.malloc 100 false, 0)] p ∧
      BreakStep p (.malloc 5 false) 4120 p' ∧ Reserves p' 4120 5 := by
  obtain ⟨p, hrun, p', hstep⟩ := run_freed
  exact ⟨p, p', hrun, hstep, (reserves_iff newProgram p p' breakInitial_newProgram _ hrun 5
    false 4120 hstep (by decide)).mpr (by decide)⟩

/-- **A pointer without memory**: the sum wraps around, the break moves down by 16 bytes, and the
live block of 8 bytes lies behind it. -/
theorem not_reserves : BreakInitial newProgram ∧
    ∃ p p', Run BreakStep newProgram [(.malloc 8 true, 4120)] p ∧
      BreakStep p (.malloc (2 ^ 64 - 40) true) 4152 p' ∧ p.heap.mem.brk = 4128 ∧
      p'.heap.mem.brk = 4112 ∧ (4120, 8) ∈ p'.live ∧ ¬ Reserves p' 4152 (2 ^ 64 - 40) := by
  refine ⟨breakInitial_newProgram, _, _, Run.cons ⟨show 8 < 2 ^ 64 by decide, rfl⟩ (Run.nil _),
    ⟨show 2 ^ 64 - 40 < 2 ^ 64 by decide, rfl⟩, rfl, rfl, by decide, fun hreserves => ?_⟩
  obtain ⟨-, hbelow⟩ := hreserves
  exact absurd (hbelow (4120, 8) (by decide)) (by decide)

end MemoryAllocator1
end SystemsProjects

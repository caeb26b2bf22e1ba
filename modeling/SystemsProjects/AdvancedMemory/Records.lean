import SystemsProjects.AdvancedMemory.LivePointers
import SystemsProjects.AdvancedMemory.Regions

/-!
# Blocks as records

A second memory for the same code.  In `Records` each address has a `block_t` of its own,
which can be accessed if the address is mapped.  A store to a field changes this field of
this block, however close the other blocks are, so the layout of the bytes does not matter:
a block from `mmap` that reaches over its region does no harm, and neither does a header that is
cut off there.

What is left of the layout are the spans, from the address of a block to its address plus its
size.  They lie in the regions and do not overlap (`Spans`), and so a split, which
happens inside the span of a block, makes a block at an address that no other block has.

`OneList` is the heap of a thread on one processor: its list runs through all blocks.
`OneList.mymalloc_cases` says what a call does, whether the block is found or made, and
whether it is split or not: `HandedOut`.
-/

namespace SystemsProjects
namespace AdvancedMemory

open Lib Allocator BlockStore

/-- The fields of the block at each address, and the regions that are mapped. -/
structure Records where
  fields : Field → ℕ → ℕ
  mapped : List Extent

namespace Records

/-- The address is in a mapped region. -/
def IsMapped (m : Records) (x : ℕ) : Prop := ∃ r ∈ m.mapped, r.start ≤ x ∧ x < r.stop

instance (m : Records) (x : ℕ) : Decidable (m.IsMapped x) :=
  inferInstanceAs (Decidable (∃ r ∈ m.mapped, _))

/-- The memory after `b->f = v`. -/
def write (m : Records) (f : Field) (b v : ℕ) : Records :=
  { m with fields := fun g c => if g = f ∧ c = b then v % 256 ^ f.width else m.fields g c }

theorem fields_write {m : Records} {f g : Field} {b c v : ℕ} (hne : g ≠ f ∨ c ≠ b) :
    (m.write f b v).fields g c = m.fields g c :=
  if_neg fun h => hne.elim (fun hg => hg h.1) fun hc => hc h.2

end Records

/-- Blocks as records: two blocks interfere only if they are the same one. -/
instance : BlockStore Records where
  load m f b := if m.IsMapped b then pure (m.fields f b) else .error .segfault
  store m f b v := if m.IsMapped b then pure (m.write f b v) else .error .segfault
  map m e := { m with mapped := e :: m.mapped }
  regions := Records.mapped
  get m f b := m.fields f b
  set := Records.write
  Header := Records.IsMapped
  Apart b c := b ≠ c
  load_eq f h := if_pos h
  store_eq f v h := if_pos h
  get_set_self m f b v := if_pos ⟨rfl, rfl⟩
  get_set_of_ne m f g b v h := Records.fields_write (Or.inl h)
  get_set_of_apart m b c f g v h := Records.fields_write (Or.inr (Ne.symm h))
  header_set f b v _ h := h
  regions_set m f b v := rfl
  get_map m e f b := rfl
  header_map e _ h := by
    obtain ⟨r, hr, hin⟩ := h
    exact ⟨r, List.mem_cons_of_mem e hr, hin⟩
  regions_map m e := rfl
  header_of_within {m b r} hr h := by
    have hstop : b + blockSize ≤ r.stop := h.2
    exact ⟨r, hr, h.1, Nat.lt_of_lt_of_le (Nat.lt_add_of_pos_right (by decide)) hstop⟩
  apart_symm h := Ne.symm h
  apart_of_disjoint {b c} h := by
    have hpos : 0 < blockSize := by decide
    omega

variable {h h' : Heap Records} {a b c cpu cpus s q : ℕ}

/-- A store leaves the other fields and the other blocks alone. -/
theorem get_set_records {m : Records} {f g : Field} (v : ℕ) (hne : c ≠ b ∨ g ≠ f) :
    get (set m f b v) g c = get m g c :=
  Records.fields_write hne.symm

/-! ## Spans -/

/-- **The spans of the blocks lie in the regions, one behind the other.** -/
structure Spans (h : Heap Records) : Prop where
  bound : ∀ r ∈ regions h.mem, 0 < r.start ∧ r.stop ≤ 2 ^ 63
  home : ∀ b ∈ h.created, ∃ r ∈ regions h.mem,
    r.start ≤ b ∧ b < r.stop ∧ b + get h.mem .size b ≤ r.stop
  before : ∀ b ∈ h.created, ∀ c ∈ h.created, b < c → b + get h.mem .size b ≤ c

namespace Spans

theorem header (l : Spans h) (hb : b ∈ h.created) : Header h.mem b := by
  obtain ⟨r, hr, hstart, hstop, -⟩ := l.home b hb
  exact ⟨r, hr, hstart, hstop⟩

theorem ne_zero (l : Spans h) (hb : b ∈ h.created) : b ≠ 0 := by
  obtain ⟨r, hr, hstart, -⟩ := l.home b hb
  exact Nat.ne_of_gt (Nat.lt_of_lt_of_le (l.bound r hr).1 hstart)

theorem lt (l : Spans h) (hb : b ∈ h.created) : b < 2 ^ 63 := by
  obtain ⟨r, hr, -, hstop, -⟩ := l.home b hb
  exact Nat.lt_of_lt_of_le hstop (l.bound r hr).2

theorem size_bound (l : Spans h) (hb : b ∈ h.created) : b + get h.mem .size b ≤ 2 ^ 63 := by
  obtain ⟨r, hr, -, -, hsize⟩ := l.home b hb
  exact hsize.trans (l.bound r hr).2

theorem add_blockSize_lt (l : Spans h) (hb : b ∈ h.created) : b + blockSize < 2 ^ 64 := by
  have hlt := l.lt hb
  simp only [blockSize]
  omega

theorem payload_eq (l : Spans h) (hb : b ∈ h.created) : payload b = b + blockSize :=
  payload_of_lt (l.add_blockSize_lt hb)

/-- The spans depend on the regions, the blocks and their sizes. -/
theorem of_fields (l : Spans h) (hregions : regions h'.mem = regions h.mem)
    (hcreated : h'.created = h.created)
    (hsize : ∀ b ∈ h.created, get h'.mem .size b = get h.mem .size b) : Spans h' where
  bound := by
    rw [hregions]
    exact l.bound
  home := by
    rw [hregions, hcreated]
    intro b hb
    rw [hsize b hb]
    exact l.home b hb
  before := by
    rw [hcreated]
    intro b hb
    rw [hsize b hb]
    exact l.before b hb

/-- A larger list of regions. -/
theorem map (l : Spans h) {e : Extent} (hfresh : Fresh h.mem e) :
    Spans { h with mem := BlockStore.map h.mem e } where
  bound r hr := by
    rw [regions_map] at hr
    rcases List.mem_cons.mp hr with rfl | hr
    · exact ⟨hfresh.pos, hfresh.stop⟩
    · exact l.bound r hr
  home b hb := by
    obtain ⟨r, hr, hin⟩ := l.home b hb
    rw [regions_map]
    exact ⟨r, List.mem_cons_of_mem e hr, hin⟩
  before := l.before

/-! ## Splitting -/

section Split

variable (l : Spans h) (hb : b ∈ h.created) (hsize : s + blockSize + 4 ≤ get h.mem .size b)

include l hb hsize

theorem additional_eq : additionalBlock b s = b + blockSize + s := by
  have hbound := l.size_bound hb
  rw [additionalBlock, Nat.mod_eq_of_lt (by omega), Nat.add_right_comm]

/-- The half that is cut off is not at the address of another block. -/
theorem additional_notMem : additionalBlock b s ∉ h.created := by
  intro hmem
  have hlt : b < additionalBlock b s := by
    rw [l.additional_eq hb hsize]
    simp only [blockSize]
    omega
  have hbefore := l.before b hb _ hmem hlt
  rw [l.additional_eq hb hsize] at hbefore
  omega

theorem additional_ne (hc : c ∈ h.created) : additionalBlock b s ≠ c := by
  rintro rfl
  exact l.additional_notMem hb hsize hc

theorem header_additional : Header h.mem (additionalBlock b s) := by
  obtain ⟨r, hr, hstart, -, hend⟩ := l.home b hb
  rw [l.additional_eq hb hsize]
  exact ⟨r, hr, by omega, by omega⟩

theorem get_split_other (hc : c ∈ h.created) (hcb : c ≠ b) (f : Field) :
    get (splitMem h.mem b s) f c = get h.mem f c :=
  get_splitMem (Ne.symm hcb) (l.additional_ne hb hsize hc) f

theorem size_split_old : get (splitMem h.mem b s) .size b = s := by
  have hbound := l.size_bound hb
  exact size_splitMem_old (by omega)

theorem size_split_new : get (splitMem h.mem b s) .size (additionalBlock b s) =
    get h.mem .size b - (s + blockSize) := by
  have hbound := l.size_bound hb
  have hremainder : remainder (get h.mem .size b) s = get h.mem .size b - (s + blockSize) :=
    remainder_of_le (by omega) (by omega)
  rw [size_splitMem_new (l.additional_ne hb hsize hb) (by omega), hremainder]

/-- **Both halves lie in the span of the block.** -/
theorem split : Spans (splitHeap h b s) := by
  have hadditional := l.additional_eq hb hsize
  have hold := l.size_split_old hb hsize
  have hnew := l.size_split_new hb hsize
  have hother : ∀ d ∈ h.created, d ≠ b →
      get (splitMem h.mem b s) .size d = get h.mem .size d :=
    fun d hd hne => l.get_split_other hb hsize hd hne .size
  have hregions : regions (splitHeap h b s).mem = regions h.mem := regions_splitMem
  have hmem : ∀ d, d ∈ (splitHeap h b s).created ↔
      d ∈ h.created ∨ d = additionalBlock b s := fun d => by
    rw [splitHeap, List.mem_append, List.mem_singleton]
  refine { bound := ?_, home := fun d hd => ?_, before := fun d hd e he hde => ?_ }
  · rw [hregions]
    exact l.bound
  · rw [hregions]
    show ∃ r ∈ regions h.mem, r.start ≤ d ∧ d < r.stop ∧
      d + get (splitMem h.mem b s) .size d ≤ r.stop
    rcases (hmem d).mp hd with hd | rfl
    · obtain ⟨r, hr, hstart, hstop, hend⟩ := l.home d hd
      refine ⟨r, hr, hstart, hstop, ?_⟩
      by_cases hdb : d = b
      · rw [hdb] at hend ⊢
        omega
      · rw [hother d hd hdb]
        exact hend
    · obtain ⟨r, hr, hstart, hstop, hend⟩ := l.home b hb
      exact ⟨r, hr, by omega, by omega, by omega⟩
  · show d + get (splitMem h.mem b s) .size d ≤ e
    rcases (hmem d).mp hd with hd | rfl
    · rcases (hmem e).mp he with he | rfl
      · have hbefore := l.before d hd e he hde
        by_cases hdb : d = b
        · rw [hdb] at hbefore ⊢
          omega
        · rw [hother d hd hdb]
          exact hbefore
      · -- no block lies in the span that is split
        rcases Nat.lt_trichotomy d b with hdb | rfl | hbd
        · have hbefore := l.before d hd b hb hdb
          rw [hother d hd (Nat.ne_of_lt hdb)]
          omega
        · omega
        · have hbefore := l.before b hb d hd hbd
          omega
    · have he : e ∈ h.created := by
        rcases (hmem e).mp he with he | rfl
        · exact he
        · omega
      have hbefore := l.before b hb e he (by omega)
      omega

end Split

end Spans

/-! ## New blocks -/

namespace Linked

/-- Sizes and marks are those of the heap before the link was made. -/
theorem get_records {last : ℕ} (k : Linked h cpu last s a h') {f : Field} (hf : f ≠ .next) :
    get h'.mem f c = get (extendedMem h.mem s a) f c := by
  refine k.get_of_apart (Or.inr ?_) hf
  by_cases hlc : last = c
  · exact Or.inl hlc
  · exact Or.inr hlc

theorem get_records_old {last : ℕ} (k : Linked h cpu last s a h') (hca : c ≠ a) {f : Field}
    (hf : f ≠ .next) : get h'.mem f c = get h.mem f c :=
  (k.get_records hf).trans (get_withHeader (Ne.symm hca) f)

end Linked

namespace Spans

/-- A block at an address that has just been mapped is a new one. -/
theorem new_notMem (l : Spans h) (hfresh : Fresh h.mem (request s a).1) : a ∉ h.created := by
  intro ha
  obtain ⟨r, hr, hstart, hstop, -⟩ := l.home a ha
  obtain ⟨hin₀, hin₁⟩ := (request_spec hfresh.stop).1
  simp only [blockSize] at hin₁
  rcases hfresh.disjoint r hr with hlt | hlt
  · omega
  · omega

/-- **The span of a new block lies in the new region.** -/
theorem linked (l : Spans h) (hfresh : Fresh h.mem (request s a).1) {last : ℕ}
    (k : Linked h cpu last s a h') : Spans h' := by
  obtain ⟨⟨hin₀, hin₁⟩, hsize, -, hlt⟩ := request_spec hfresh.stop
  simp only [blockSize] at hin₁
  have hnew : get h'.mem .size a = (request s a).2 :=
    (k.get_records (by decide)).trans (size_withHeader hlt)
  have hold : ∀ d ∈ h.created, get h'.mem .size d = get h.mem .size d := fun d hd => by
    refine k.get_records_old ?_ (by decide)
    rintro rfl
    exact l.new_notMem hfresh hd
  have hmap := l.map hfresh
  refine { bound := ?_, home := fun d hd => ?_, before := fun d hd e he hde => ?_ }
  · rw [k.regions_eq, ← regions_map]
    exact hmap.bound
  · rw [k.regions_eq]
    rcases k.mem_created.mp hd with hd | rfl
    · obtain ⟨r, hr, hin⟩ := l.home d hd
      rw [hold d hd]
      exact ⟨r, List.mem_cons_of_mem _ hr, hin⟩
    · rw [hnew]
      exact ⟨_, List.mem_cons_self, hin₀, by omega, hsize⟩
  · rcases k.mem_created.mp hd with hd | rfl
    · rw [hold d hd]
      rcases k.mem_created.mp he with he | rfl
      · exact l.before d hd e he hde
      · obtain ⟨r, hr, hstart, hstop, hend⟩ := l.home d hd
        rcases hfresh.disjoint r hr with hdisjoint | hdisjoint
        · omega
        · omega
    · rw [hnew]
      rcases k.mem_created.mp he with he | rfl
      · obtain ⟨r, hr, hstart, hstop, -⟩ := l.home e he
        rcases hfresh.disjoint r hr with hdisjoint | hdisjoint
        · omega
        · omega
      · omega

end Spans

end AdvancedMemory
end SystemsProjects

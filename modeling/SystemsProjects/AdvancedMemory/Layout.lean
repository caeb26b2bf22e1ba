import SystemsProjects.AdvancedMemory.Sections

/-!
# Where the blocks lie

The operating system hands out regions that share no byte, and the blocks of a region
lie behind one another.  `Layout` says so, with one peculiarity of this allocator: the
size recorded for a block from `mmap` is the length of the whole region, although the
header takes 24 bytes of it.  So a block may end up to 24 bytes behind its region,
and all that holds of the end of a block is `b + size ≤ r.stop`.

Payloads of different blocks are still disjoint (`Layout.payload_before`), since the
block behind the end has a header of 24 bytes itself.  A split, however, needs
a condition: the header that is cut off has to lie in the region (`CanSplit.room`).

Each section of the allocator keeps the layout: `Layout.set_field`, `Layout.split` and
`Layout.extend`.
-/

namespace SystemsProjects
namespace AdvancedMemory

open Lib Allocator BlockStore

variable {M : Type} [BlockStore M] {h h' : Heap M} {b c s a : ℕ}

/-- The header of the block lies in the region. -/
def Holds (r : Extent) (b : ℕ) : Prop := r.start ≤ b ∧ b + blockSize ≤ r.stop

instance (r : Extent) (b : ℕ) : Decidable (Holds r b) :=
  inferInstanceAs (Decidable (_ ∧ _))

/-- **The blocks lie in the regions, one behind the other.** -/
structure Layout (h : Heap M) : Prop where
  apart : (regions h.mem).Pairwise Extent.Disjoint
  bound : ∀ r ∈ regions h.mem, 0 < r.start ∧ r.stop ≤ 2 ^ 63
  home : ∀ b ∈ h.created, ∃ r ∈ regions h.mem, Holds r b ∧ b + get h.mem .size b ≤ r.stop
  tiles : ∀ r ∈ regions h.mem, ∀ b ∈ h.created, ∀ c ∈ h.created, Holds r b → Holds r c →
    b < c → b + blockSize + get h.mem .size b ≤ c

/-- Two regions without a common byte hold different headers. -/
theorem Holds.before_or_after {r r' : Extent} (hdisjoint : r.Disjoint r') (hb : Holds r b)
    (hc : Holds r' c) : b + blockSize ≤ c ∨ c + blockSize ≤ b := by
  obtain ⟨hb₀, hb₁⟩ := hb
  obtain ⟨hc₀, hc₁⟩ := hc
  exact hdisjoint.imp (fun h => hb₁.trans (h.trans hc₀)) (fun h => hc₁.trans (h.trans hb₀))

theorem Holds.ne {r r' : Extent} (hdisjoint : r.Disjoint r') (hb : Holds r b)
    (hc : Holds r' c) : b ≠ c := by
  have hpos : 0 < blockSize := by decide
  rcases hb.before_or_after hdisjoint hc with h | h
  · omega
  · omega

namespace Layout

/-! ## Headers and payloads -/

theorem regions_disjoint (l : Layout h) {r r' : Extent} (hr : r ∈ regions h.mem)
    (hr' : r' ∈ regions h.mem) (hne : r ≠ r') : r.Disjoint r' :=
  l.apart.forall hr hr' hne

/-- A header lies in one region. -/
theorem region_unique (l : Layout h) {r r' : Extent} (hr : r ∈ regions h.mem)
    (hr' : r' ∈ regions h.mem) (hb : Holds r b) (hb' : Holds r' b) : r = r' := by
  by_contra hne
  exact hb.ne (l.regions_disjoint hr hr' hne) hb' rfl

theorem header (l : Layout h) (hb : b ∈ h.created) : Header h.mem b := by
  obtain ⟨r, hr, hin, -⟩ := l.home b hb
  exact header_of_within hr hin

theorem ne_zero (l : Layout h) (hb : b ∈ h.created) : b ≠ 0 := by
  obtain ⟨r, hr, hin, -⟩ := l.home b hb
  exact Nat.ne_of_gt (Nat.lt_of_lt_of_le (l.bound r hr).1 hin.1)

theorem header_bound (l : Layout h) (hb : b ∈ h.created) : b + blockSize ≤ 2 ^ 63 := by
  obtain ⟨r, hr, hin, -⟩ := l.home b hb
  exact hin.2.trans (l.bound r hr).2

theorem payload_eq (l : Layout h) (hb : b ∈ h.created) : payload b = b + blockSize :=
  payload_of_lt (Nat.lt_of_le_of_lt (l.header_bound hb) (by decide))

theorem size_bound (l : Layout h) (hb : b ∈ h.created) : b + get h.mem .size b ≤ 2 ^ 63 := by
  obtain ⟨r, hr, -, hsize⟩ := l.home b hb
  exact hsize.trans (l.bound r hr).2

/-- Of two blocks the lower one has its header before the other one. -/
theorem header_before (l : Layout h) (hb : b ∈ h.created) (hc : c ∈ h.created) (hbc : b < c) :
    b + blockSize ≤ c := by
  obtain ⟨r, hr, hbin, -⟩ := l.home b hb
  obtain ⟨r', hr', hcin, -⟩ := l.home c hc
  by_cases heq : r = r'
  · rw [← heq] at hcin
    exact (Nat.le_add_right _ _).trans (l.tiles r hr b hb c hc hbin hcin hbc)
  · rcases hbin.before_or_after (l.regions_disjoint hr hr' heq) hcin with h | h
    · exact h
    · omega

theorem headers_apart (l : Layout h) (hb : b ∈ h.created) (hc : c ∈ h.created) (hne : b ≠ c) :
    Apart M b c := by
  refine apart_of_disjoint ?_
  rcases Nat.lt_or_gt_of_ne hne with hlt | hlt
  · exact Or.inl (l.header_before hb hc hlt)
  · exact Or.inr (l.header_before hc hb hlt)

/-- **The payload of the lower block ends before the payload of the other one.** -/
theorem payload_before (l : Layout h) (hb : b ∈ h.created) (hc : c ∈ h.created) (hbc : b < c) :
    b + blockSize + get h.mem .size b ≤ c + blockSize := by
  obtain ⟨r, hr, hbin, hsize⟩ := l.home b hb
  obtain ⟨r', hr', hcin, -⟩ := l.home c hc
  by_cases heq : r = r'
  · rw [← heq] at hcin
    exact (l.tiles r hr b hb c hc hbin hcin hbc).trans (Nat.le_add_right _ _)
  · rw [Nat.add_right_comm]
    refine Nat.add_le_add_right (hsize.trans ?_) blockSize
    rcases l.regions_disjoint hr hr' heq with h | h
    · exact h.trans hcin.1
    · have hover : c + blockSize ≤ b := hcin.2.trans (h.trans hbin.1)
      omega

/-! ## Changes that move no block -/

/-- The layout depends on the regions, the blocks and their sizes. -/
theorem of_fields (l : Layout h) (hregions : regions h'.mem = regions h.mem)
    (hcreated : h'.created = h.created)
    (hsize : ∀ b ∈ h.created, get h'.mem .size b = get h.mem .size b) : Layout h' where
  apart := by
    rw [hregions]
    exact l.apart
  bound := by
    rw [hregions]
    exact l.bound
  home := by
    rw [hregions, hcreated]
    intro b hb
    rw [hsize b hb]
    exact l.home b hb
  tiles := by
    rw [hregions, hcreated]
    intro r hr b hb
    rw [hsize b hb]
    exact l.tiles r hr b hb

/-- A store to a field of a block leaves the other fields and blocks alone. -/
theorem get_set (l : Layout h) (hb : b ∈ h.created) (hc : c ∈ h.created) {f g : Field} (v : ℕ)
    (hne : c ≠ b ∨ g ≠ f) : get (set h.mem f b v) g c = get h.mem g c := by
  by_cases hcb : c = b
  · rw [hcb, get_set_of_ne _ _ _ (hne.resolve_left fun h => h hcb)]
  · rw [get_set_of_apart _ _ _ _ (l.headers_apart hb hc (Ne.symm hcb))]

/-- A store to a field that is not a size. -/
theorem set_field (l : Layout h) (hb : b ∈ h.created) {f : Field} (hf : f ≠ .size) (v : ℕ) :
    Layout { h with mem := set h.mem f b v } :=
  l.of_fields (regions_set _ _ _ _) rfl fun _ hc => l.get_set hb hc v (Or.inr hf.symm)

end Layout

/-! ## Splitting -/

theorem add_le_of_splittable {size : ℕ} (hs : s < 2 ^ 63) (h : Splittable size s) :
    s + blockSize + 4 ≤ size := by
  have hmod : (s + blockSize + 4) % 2 ^ 64 = s + blockSize + 4 :=
    Nat.mod_eq_of_lt (by simp only [blockSize]; omega)
  rw [← hmod]
  exact h

/-- The subtraction does not wrap around. -/
theorem remainder_of_le {size : ℕ} (hs : s + blockSize ≤ size) (hsize : size < 2 ^ 64) :
    remainder size s = size - (s + blockSize) := by
  rw [remainder, Nat.mod_eq_of_lt (show s + blockSize < 2 ^ 64 by omega),
    ← Nat.add_sub_assoc (by omega), Nat.sub_add_comm (by omega), Nat.add_mod_right,
    Nat.mod_eq_of_lt (by omega)]

/-- The block is large enough to be split behind `s` bytes, and its region has room
for the header of the second half. -/
structure CanSplit (h : Heap M) (b s : ℕ) : Prop where
  mem : b ∈ h.created
  size : s + blockSize + 4 ≤ get h.mem .size b
  room : ∀ r ∈ regions h.mem, Holds r b → Holds r (additionalBlock b s)

namespace CanSplit

theorem additional_eq (l : Layout h) (p : CanSplit h b s) :
    additionalBlock b s = b + blockSize + s := by
  have hbound := l.size_bound p.mem
  have hsize := p.size
  rw [additionalBlock, Nat.mod_eq_of_lt (by omega), Nat.add_right_comm]

theorem remainder_eq (l : Layout h) (p : CanSplit h b s) :
    remainder (get h.mem .size b) s = get h.mem .size b - (s + blockSize) := by
  have hbound := l.size_bound p.mem
  have hsize := p.size
  exact remainder_of_le (by omega) (by omega)

/-- The half that is cut off stands apart from all blocks. -/
theorem additional_before_or_after (l : Layout h) (p : CanSplit h b s) (hc : c ∈ h.created) :
    additionalBlock b s + blockSize ≤ c ∨ c + blockSize ≤ additionalBlock b s := by
  obtain ⟨r, hr, hbin, -⟩ := l.home b p.mem
  obtain ⟨r', hr', hcin, -⟩ := l.home c hc
  have hsize := p.size
  by_cases heq : r = r'
  · rw [← heq] at hcin
    rw [p.additional_eq l]
    rcases Nat.lt_trichotomy c b with hlt | rfl | hlt
    · have hcb := l.header_before hc p.mem hlt
      omega
    · exact Or.inr (Nat.le_add_right _ _)
    · have hbc := l.tiles r hr b p.mem c hc hbin hcin hlt
      omega
  · exact (p.room r hr hbin).before_or_after (l.regions_disjoint hr hr' heq) hcin

theorem additional_apart (l : Layout h) (p : CanSplit h b s) (hc : c ∈ h.created) :
    Apart M (additionalBlock b s) c :=
  apart_of_disjoint (p.additional_before_or_after l hc)

theorem additional_notMem (l : Layout h) (p : CanSplit h b s) :
    additionalBlock b s ∉ h.created := by
  intro hmem
  have hpos : 0 < blockSize := by decide
  rcases p.additional_before_or_after l hmem with h | h
  · omega
  · omega

theorem header_additional (l : Layout h) (p : CanSplit h b s) :
    Header h.mem (additionalBlock b s) := by
  obtain ⟨r, hr, hbin, -⟩ := l.home b p.mem
  exact header_of_within hr (p.room r hr hbin)

/-- **What `splitBlock` does.** -/
theorem splitBlock_ok (l : Layout h) (p : CanSplit h b s) (cpu : ℕ) :
    splitBlock h cpu b s =
      if h.locks cpu = true then .error .deadlock else .ok (splitHeap h b s) :=
  splitBlock_eq (l.header p.mem) (p.header_additional l) (p.additional_apart l p.mem)

/-- A split that returns has split. -/
theorem eq_splitHeap (l : Layout h) (p : CanSplit h b s) {cpu : ℕ}
    (hcall : splitBlock h cpu b s = .ok h') : h' = splitHeap h b s := by
  rw [p.splitBlock_ok l] at hcall
  by_cases hlock : h.locks cpu = true
  · rw [if_pos hlock] at hcall
    cases hcall
  · rw [if_neg hlock] at hcall
    exact (Except.ok.inj hcall).symm

/-- The blocks that are not split keep their fields. -/
theorem get_other (l : Layout h) (p : CanSplit h b s) (hc : c ∈ h.created) (hne : c ≠ b)
    (f : Field) : get (splitMem h.mem b s) f c = get h.mem f c :=
  get_splitMem (l.headers_apart p.mem hc hne.symm) (p.additional_apart l hc) f

theorem size_old (l : Layout h) (p : CanSplit h b s) :
    get (splitMem h.mem b s) .size b = s := by
  have hbound := l.size_bound p.mem
  have hsize := p.size
  exact size_splitMem_old (by omega)

theorem size_new (l : Layout h) (p : CanSplit h b s) :
    get (splitMem h.mem b s) .size (additionalBlock b s) =
      get h.mem .size b - (s + blockSize) := by
  have hbound := l.size_bound p.mem
  have hr := p.remainder_eq l
  rw [size_splitMem_new (p.additional_apart l p.mem) (by omega), hr]

end CanSplit

/-- **A split keeps the layout.** -/
theorem Layout.split (l : Layout h) (p : CanSplit h b s) : Layout (splitHeap h b s) := by
  have hsize := p.size
  have hadditional := p.additional_eq l
  have hold := p.size_old l
  have hnew := p.size_new l
  have hother : ∀ d ∈ h.created, d ≠ b →
      get (splitMem h.mem b s) .size d = get h.mem .size d :=
    fun d hd hne => p.get_other l hd hne .size
  have hregions : regions (splitHeap h b s).mem = regions h.mem := regions_splitMem
  have hmem : ∀ d, d ∈ (splitHeap h b s).created ↔
      d ∈ h.created ∨ d = additionalBlock b s := fun d => by
    rw [splitHeap, List.mem_append, List.mem_singleton]
  refine { apart := ?_, bound := ?_, home := ?_, tiles := ?_ }
  · rw [hregions]
    exact l.apart
  · rw [hregions]
    exact l.bound
  · intro d hd
    rw [hregions]
    show ∃ r ∈ regions h.mem, Holds r d ∧ d + get (splitMem h.mem b s) .size d ≤ r.stop
    rcases (hmem d).mp hd with hd | rfl
    · obtain ⟨r, hr, hin, hle⟩ := l.home d hd
      refine ⟨r, hr, hin, ?_⟩
      by_cases hdb : d = b
      · rw [hdb] at hle ⊢
        omega
      · rw [hother d hd hdb]
        exact hle
    · obtain ⟨r, hr, hin, hle⟩ := l.home b p.mem
      refine ⟨r, hr, p.room r hr hin, ?_⟩
      omega
  · rw [hregions]
    intro r hr d hd e he hdin hein hlt
    show d + blockSize + get (splitMem h.mem b s) .size d ≤ e
    rcases (hmem d).mp hd with hd | rfl
    · rcases (hmem e).mp he with he | rfl
      · have htile := l.tiles r hr d hd e he hdin hein hlt
        by_cases hdb : d = b
        · rw [hdb] at htile ⊢
          omega
        · rw [hother d hd hdb]
          exact htile
      · -- a block before the second half is the first half or lies before it
        have hbin : Holds r b := by
          obtain ⟨r', hr', hbin', -⟩ := l.home b p.mem
          rw [l.region_unique hr hr' hein (p.room r' hr' hbin')]
          exact hbin'
        rcases Nat.lt_trichotomy d b with hdb | rfl | hbd
        · have htile := l.tiles r hr d hd b p.mem hdin hbin hdb
          rw [hother d hd (Nat.ne_of_lt hdb)]
          omega
        · omega
        · have htile := l.tiles r hr b p.mem d hd hbin hdin hbd
          omega
    · have he : e ∈ h.created := by
        rcases (hmem e).mp he with he | rfl
        · exact he
        · omega
      have hbin : Holds r b := by
        obtain ⟨r', hr', hbin', -⟩ := l.home b p.mem
        rw [l.region_unique hr hr' hdin (p.room r' hr' hbin')]
        exact hbin'
      have htile := l.tiles r hr b p.mem e he hbin hein (by omega)
      omega

/-! ## New regions -/

/-- A region that is mapped anew holds no block. -/
theorem Layout.not_holds_fresh (l : Layout h) {e : Extent} (hfresh : Fresh h.mem e)
    (hb : b ∈ h.created) : ¬ Holds e b := by
  obtain ⟨r, hr, hin, -⟩ := l.home b hb
  exact fun hbin => hbin.ne (hfresh.disjoint r hr) hin rfl

/-- **The operating system maps one more region.** -/
theorem Layout.map (l : Layout h) {e : Extent} (hfresh : Fresh h.mem e) :
    Layout { h with mem := BlockStore.map h.mem e } where
  apart := by
    rw [regions_map, List.pairwise_cons]
    exact ⟨hfresh.disjoint, l.apart⟩
  bound := by
    rw [regions_map]
    intro r hr
    rcases List.mem_cons.mp hr with rfl | hr
    · exact ⟨hfresh.pos, hfresh.stop⟩
    · exact l.bound r hr
  home := by
    intro b hb
    obtain ⟨r, hr, hin, hsize⟩ := l.home b hb
    rw [regions_map, get_map]
    exact ⟨r, List.mem_cons_of_mem e hr, hin, hsize⟩
  tiles := by
    rw [regions_map]
    intro r hr b hb c hc hbin hcin hbc
    rw [get_map]
    rcases List.mem_cons.mp hr with rfl | hr
    · exact absurd hbin (l.not_holds_fresh hfresh hb)
    · exact l.tiles r hr b hb c hc hbin hcin hbc

/-- What the region and the size of a new block have to do with each other. -/
theorem request_spec (hstop : (request s a).1.stop ≤ 2 ^ 63) :
    Holds (request s a).1 a ∧ a + (request s a).2 ≤ (request s a).1.stop ∧
      s ≤ (request s a).2 ∧ (request s a).2 < 2 ^ 64 := by
  rw [request] at hstop ⊢
  by_cases hs : s > 4095
  · rw [if_pos hs] at hstop ⊢
    simp only [Holds, Extent.stop, mappedLength, recordedSize, blockSize] at hstop ⊢
    omega
  · rw [if_neg hs] at hstop ⊢
    simp only [Holds, Extent.stop, blockSize] at hstop ⊢
    omega

section Extend

variable (l : Layout h) (hfresh : Fresh h.mem (request s a).1)

include l hfresh

theorem Layout.new_notMem : a ∉ h.created :=
  fun ha => l.not_holds_fresh hfresh ha (request_spec hfresh.stop).1

theorem Layout.new_apart (hb : b ∈ h.created) : Apart M a b := by
  obtain ⟨r, hr, hin, -⟩ := l.home b hb
  exact apart_of_disjoint
    ((request_spec hfresh.stop).1.before_or_after (hfresh.disjoint r hr) hin)

/-- The blocks there are keep their fields. -/
theorem Layout.get_extended (hb : b ∈ h.created) (f : Field) :
    get (extendedMem h.mem s a) f b = get h.mem f b := by
  rw [extendedMem, get_withHeader (l.new_apart hfresh hb), get_map]

omit l in
theorem header_new : Header (BlockStore.map h.mem (request s a).1) a := by
  refine header_of_within (r := (request s a).1) ?_ (request_spec hfresh.stop).1
  rw [regions_map]
  exact List.mem_cons_self

/-- **A new block keeps the layout.** -/
theorem Layout.extend : Layout (extendedHeap h s a) := by
  obtain ⟨hin, hsize, -, hlt⟩ := request_spec hfresh.stop
  have lmap := l.map hfresh
  have hregions : regions (extendedHeap h s a).mem = (request s a).1 :: regions h.mem := by
    rw [extendedHeap, extendedMem, regions_withHeader, regions_map]
  have hmem : ∀ d, d ∈ (extendedHeap h s a).created ↔ d ∈ h.created ∨ d = a := fun d => by
    rw [extendedHeap, List.mem_append, List.mem_singleton]
  have hnew : get (extendedMem h.mem s a) .size a = (request s a).2 := size_withHeader hlt
  -- a region that holds the new block holds no other one
  have halone : ∀ r ∈ (request s a).1 :: regions h.mem, Holds r a →
      ∀ d ∈ h.created, ¬ Holds r d := by
    intro r hr har d hd hdr
    rw [← regions_map] at hr
    have heq : r = (request s a).1 :=
      lmap.region_unique hr (by rw [regions_map]; exact List.mem_cons_self) har hin
    rw [heq] at hdr
    exact l.not_holds_fresh hfresh hd hdr
  refine { apart := ?_, bound := ?_, home := ?_, tiles := ?_ }
  · rw [hregions, ← regions_map]
    exact lmap.apart
  · rw [hregions, ← regions_map]
    exact lmap.bound
  · rw [hregions]
    intro d hd
    rcases (hmem d).mp hd with hd | rfl
    · obtain ⟨r, hr, hdr, hle⟩ := l.home d hd
      refine ⟨r, List.mem_cons_of_mem _ hr, hdr, ?_⟩
      rw [extendedHeap, l.get_extended hfresh hd]
      exact hle
    · refine ⟨_, List.mem_cons_self, hin, ?_⟩
      rw [extendedHeap, hnew]
      exact hsize
  · rw [hregions]
    intro r hr d hd e he hdr her hde
    rcases (hmem d).mp hd with hd | hda
    · rcases (hmem e).mp he with he | hea
      · have htile := lmap.tiles r (by rw [regions_map]; exact hr) d hd e he hdr her hde
        rw [get_map] at htile
        rw [extendedHeap, l.get_extended hfresh hd]
        exact htile
      · rw [hea] at her
        exact absurd hdr (halone r hr her d hd)
    · rw [hda] at hdr hde
      rcases (hmem e).mp he with he | hea
      · exact absurd her (halone r hr hdr e he)
      · rw [hea] at hde
        exact absurd hde (Nat.lt_irrefl a)

end Extend

/-- The heap after the new block has become the list of `cpu` or the next block of
`last`. -/
inductive Linked (h : Heap M) (cpu last s a : ℕ) : Heap M → Prop where
  | head {lists : List ℕ} (hlast : last = 0) (hheads : h.blockHead = .array lists)
      (hcpu : cpu < lists.length) :
      Linked h cpu last s a { extendedHeap h s a with blockHead := .array (lists.set cpu a) }
  | behind (hlast : last ≠ 0) :
      Linked h cpu last s a
        { extendedHeap h s a with mem := set (extendedMem h.mem s a) .next last a }

namespace Linked

variable {cpu last : ℕ}

theorem created_eq (k : Linked h cpu last s a h') : h'.created = h.created ++ [a] := by
  cases k <;> rfl

theorem locks_eq (k : Linked h cpu last s a h') : h'.locks = h.locks := by
  cases k <;> rfl

theorem mem_created (k : Linked h cpu last s a h') :
    c ∈ h'.created ↔ c ∈ h.created ∨ c = a := by
  rw [k.created_eq, List.mem_append, List.mem_singleton]

theorem regions_eq (k : Linked h cpu last s a h') :
    regions h'.mem = (request s a).1 :: regions h.mem := by
  have hextended : regions (extendedMem h.mem s a) = (request s a).1 :: regions h.mem := by
    rw [extendedMem, regions_withHeader, regions_map]
  cases k with
  | head => exact hextended
  | behind => exact (regions_set _ _ _ _).trans hextended

/-- The link changes the field `next` of the last block. -/
theorem get_of_apart (k : Linked h cpu last s a h') (hc : last = 0 ∨ last = c ∨ Apart M last c)
    {f : Field} (hf : f ≠ .next) : get h'.mem f c = get (extendedMem h.mem s a) f c := by
  cases k with
  | head => rfl
  | behind hne =>
    rcases hc.resolve_left hne with rfl | hapart
    · exact get_set_of_ne _ _ _ hf
    · exact get_set_of_apart _ _ _ _ hapart

variable (l : Layout h) (hfresh : Fresh h.mem (request s a).1)
  (hlast : last = 0 ∨ last ∈ h.created) (k : Linked h cpu last s a h')

include l hfresh hlast k

/-- Sizes and marks are those of the heap before the link was made. -/
theorem get_extended (hc : c ∈ h'.created) {f : Field} (hf : f ≠ .next) :
    get h'.mem f c = get (extendedMem h.mem s a) f c := by
  rw [k.created_eq] at hc
  refine k.get_of_apart (hlast.imp_right fun hl => ?_) hf
  by_cases hlc : last = c
  · exact Or.inl hlc
  · exact Or.inr ((l.extend hfresh).headers_apart (List.mem_append_left _ hl) hc hlc)

theorem get_old (hc : c ∈ h.created) {f : Field} (hf : f ≠ .next) :
    get h'.mem f c = get h.mem f c := by
  rw [k.get_extended l hfresh hlast (k.mem_created.mpr (Or.inl hc)) hf,
    l.get_extended hfresh hc]

theorem size_new : get h'.mem .size a = (request s a).2 := by
  rw [k.get_extended l hfresh hlast (k.mem_created.mpr (Or.inr rfl)) (by decide)]
  exact size_withHeader (request_spec hfresh.stop).2.2.2

theorem free_new : get h'.mem .free a = 0 := by
  rw [k.get_extended l hfresh hlast (k.mem_created.mpr (Or.inr rfl)) (by decide)]
  exact free_withHeader (by decide)

/-- **A new block that is linked in keeps the layout.** -/
theorem layout : Layout h' := by
  refine (l.extend hfresh).of_fields ?_ k.created_eq fun c hc => ?_
  · rw [k.regions_eq, extendedHeap, extendedMem, regions_withHeader, regions_map]
  · refine k.get_extended l hfresh hlast ?_ (by decide)
    rw [k.created_eq]
    exact hc

end Linked

/-- **What `extendMemory` does up to the split**, if the new block and the last block can
be accessed and do not interfere. -/
theorem extendSection_cases {cpu lastCpu : ℕ} {answer : Option ℕ} {new : Option (ℕ × Bool)}
    (hnew : ∀ a, answer = some a →
      Header (BlockStore.map h.mem (request s a).1) a ∧ (request s a).2 < 2 ^ 64)
    (hlast : ∀ a last, answer = some a → getLastBlock h lastCpu = .ok last →
      last = 0 ∨ (Header h.mem last ∧ Apart M last a))
    (hcall : extendSection h cpu lastCpu s answer = .ok (h', new)) :
    (answer = none ∧ h' = h ∧ new = none) ∨
      ∃ a last, answer = some a ∧ getLastBlock h lastCpu = .ok last ∧
        Linked h cpu last s a h' ∧ new = some (a, decide (Splittable (request s a).2 s)) := by
  rw [extendSection_eq fun a ha => (hnew a ha).1] at hcall
  by_cases hlock : h.locks cpu = true
  · rw [if_pos hlock] at hcall
    cases hcall
  · rw [if_neg hlock] at hcall
    obtain ⟨last, hwalk, hcall⟩ := bind_eq_ok.mp hcall
    cases answer with
    | none =>
      dsimp only at hcall
      rw [pure_eq_ok, Except.ok.injEq, Prod.mk.injEq] at hcall
      exact Or.inl ⟨rfl, hcall.1.symm, hcall.2.symm⟩
    | some a =>
      obtain ⟨ha, hlt⟩ := hnew a rfl
      have hmem := hlast a last rfl hwalk
      dsimp only at hcall
      obtain ⟨h₁, hlink, hcall⟩ := bind_eq_ok.mp hcall
      have k : Linked h cpu last s a h₁ := by
        rcases linkBlock_cases (hmem.imp_right fun hm => header_withHeader (header_map _ hm.1))
          hlink with ⟨hnull, lists, hheads, hcpu, rfl⟩ | ⟨hne, rfl⟩
        · exact Linked.head hnull hheads hcpu
        · exact Linked.behind hne
      have hheader : Header h₁.mem a := by
        have hextended : Header (extendedMem h.mem s a) a := header_withHeader ha
        cases k with
        | head => exact hextended
        | behind => exact header_set _ _ _ hextended
      have hsize : get h₁.mem .size a = (request s a).2 :=
        (k.get_of_apart (hmem.imp_right fun hm => Or.inr hm.2) (by decide)).trans
          (size_withHeader hlt)
      rw [load_eq _ hheader, ok_bind, hsize, pure_eq_ok, Except.ok.injEq, Prod.mk.injEq] at hcall
      rw [← hcall.1]
      exact Or.inr ⟨a, last, rfl, hwalk, k, hcall.2.symm⟩

/-- **What `extendMemory` does up to the split**, in a heap with the layout. -/
theorem Layout.extendSection_cases (l : Layout h) {cpu lastCpu : ℕ} {answer : Option ℕ}
    {new : Option (ℕ × Bool)}
    (hfresh : ∀ a, answer = some a → Fresh h.mem (request s a).1)
    (hlast : ∀ last, getLastBlock h lastCpu = .ok last → last = 0 ∨ last ∈ h.created)
    (hcall : extendSection h cpu lastCpu s answer = .ok (h', new)) :
    (answer = none ∧ h' = h ∧ new = none) ∨
      ∃ a last, answer = some a ∧ getLastBlock h lastCpu = .ok last ∧
        Linked h cpu last s a h' ∧ new = some (a, decide (Splittable (request s a).2 s)) := by
  refine AdvancedMemory.extendSection_cases (fun a ha => ?_) (fun a last ha hwalk => ?_) hcall
  · exact ⟨header_new (hfresh a ha), (request_spec (hfresh a ha).stop).2.2.2⟩
  · exact (hlast last hwalk).imp_right fun hm =>
      ⟨l.header hm, apart_symm (l.new_apart (hfresh a ha) hm)⟩

/-! ## Freeing -/

/-- **How `myfree` returns**: the block is marked, or it was free and the mutex is
kept. -/
theorem Layout.myfree_cases (l : Layout h) {cpu ptr : ℕ}
    (hptr : ptr = 0 ∨ ∃ b ∈ h.created, ptr = b + blockSize) (hcall : myfree h cpu ptr = .ok h') :
    (h'.mem = h.mem ∧ h'.blockHead = h.blockHead ∧ h'.created = h.created) ∨
      ∃ b ∈ h.created, ptr = b + blockSize ∧ h' = { h with mem := set h.mem .free b 1 } := by
  rcases hptr with rfl | ⟨b, hb, rfl⟩
  · rw [myfree_null] at hcall
    obtain rfl := Except.ok.inj hcall
    exact Or.inl ⟨rfl, rfl, rfl⟩
  · have hbound := l.header_bound hb
    rw [myfree_eq (by omega) (l.header hb)] at hcall
    split at hcall
    · cases hcall
    · split at hcall
      · obtain rfl := Except.ok.inj hcall
        exact Or.inl ⟨rfl, rfl, rfl⟩
      · exact Or.inr ⟨b, hb, rfl, (Except.ok.inj hcall).symm⟩

end AdvancedMemory
end SystemsProjects

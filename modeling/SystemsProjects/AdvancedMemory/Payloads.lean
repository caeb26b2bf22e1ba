import SystemsProjects.AdvancedMemory.EndingLists

/-!
# The bytes of the payloads

A call of `mymalloc` writes into headers only, those of the blocks there were and those of
the blocks it makes (`Walks.bytes_malloc`).  A payload that lies in its region shares no
byte with a header, since the headers lie in regions, too, and the blocks of a region lie one
behind the other (`Layout.header_off_payload`).  So the calls leave such a payload alone,
and whoever writes into it leaves the lists alone.

Whether the payload of a block lies in its region is decided when the block is handed out.
`StaysInside` is the condition on the state before the call.  The size that is recorded for a
block from `mmap` is 24 bytes too large, and the block reaches over its region if it is
not split.
-/

namespace SystemsProjects
namespace AdvancedMemory

open Lib Allocator BlockStore

/-! ## Blocks in their regions -/

section Inside

variable {M : Type} [BlockStore M] {h h' : Heap M} {cpu cpus s a b c q : ℕ} {env : Environment}

/-- The block lies in a region, with its payload. -/
def InRegion (h : Heap M) (b : ℕ) : Prop :=
  ∃ r ∈ regions h.mem, Holds r b ∧ b + blockSize + get h.mem .size b ≤ r.stop

/-- The block of size `z` that is handed out for `s` bytes lies in the region `r`, or it is
split and the header of the second half does. -/
def FitsIn (r : Extent) (b z s : ℕ) : Prop :=
  if Splittable z s then Holds r (additionalBlock b s) else b + blockSize + z ≤ r.stop

instance (r : Extent) (b z s : ℕ) : Decidable (FitsIn r b z s) :=
  inferInstanceAs (Decidable (if Splittable z s then Holds r (additionalBlock b s)
    else b + blockSize + z ≤ r.stop))

/-- **The block that a request gets lies in its region**, whether it is found or made. -/
def StaysInside (h : Heap M) (env : Environment) (s : ℕ) : Prop :=
  (∀ b, Found h env.find s b → b ≠ 0 →
    ∀ r ∈ regions h.mem, Holds r b → FitsIn r b (get h.mem .size b) s) ∧
  ∀ a, env.answer = some a → NoneFits h env s → FitsIn (request s a).1 a (request s a).2 s

theorem FitsIn.roomIn {r : Extent} {z : ℕ} (hfits : FitsIn r b z s) : RoomIn r b z s := by
  intro hsplit
  rw [FitsIn, if_pos hsplit] at hfits
  exact hfits

theorem FitsIn.whole {r : Extent} {z : ℕ} (hfits : FitsIn r b z s) (hwhole : ¬ Splittable z s) :
    b + blockSize + z ≤ r.stop := by
  rw [FitsIn, if_neg hwhole] at hfits
  exact hfits

theorem StaysInside.splitsInside (hstays : StaysInside h env s) : SplitsInside h env s :=
  ⟨fun b hfound hne r hr hb => (hstays.1 b hfound hne r hr hb).roomIn,
    fun a hanswer hnone => (hstays.2 a hanswer hnone).roomIn⟩

/-- More regions and the same size. -/
theorem InRegion.mono (hin : InRegion h b) (hregions : ∀ r ∈ regions h.mem, r ∈ regions h'.mem)
    (hsize : get h'.mem .size b = get h.mem .size b) : InRegion h' b := by
  obtain ⟨r, hr, hb, hstop⟩ := hin
  exact ⟨r, hregions r hr, hb, by rw [hsize]; exact hstop⟩

/-- **A header shares no byte with a payload that lies in its region.** -/
theorem Layout.header_off_payload (l : Layout h) (hb : b ∈ h.created) (hin : InRegion h b)
    (hc : c ∈ h.created) :
    c + blockSize ≤ b + blockSize ∨ b + blockSize + get h.mem .size b ≤ c := by
  obtain ⟨r, hr, hbin, hstop⟩ := hin
  obtain ⟨r', hr', hcin, -⟩ := l.home c hc
  obtain ⟨hc₀, hc₁⟩ := hcin
  obtain ⟨hb₀, hb₁⟩ := hbin
  by_cases heq : r = r'
  · rcases Nat.lt_or_ge b c with hlt | hge
    · exact Or.inr (l.tiles r hr b hb c hc ⟨hb₀, hb₁⟩ (heq ▸ ⟨hc₀, hc₁⟩) hlt)
    · exact Or.inl (Nat.add_le_add_right hge blockSize)
  · rcases l.regions_disjoint hr hr' heq with hdisjoint | hdisjoint
    · exact Or.inr (hstop.trans (hdisjoint.trans hc₀))
    · exact Or.inl ((hc₁.trans (hdisjoint.trans hb₀)).trans (Nat.le_add_right b blockSize))

/-- A block that has been split lies in its region, if the second header does. -/
theorem CanSplit.inRegion (l : Layout h) (p : CanSplit h b s) : InRegion (splitHeap h b s) b := by
  obtain ⟨r, hr, hbin, -⟩ := l.home b p.mem
  obtain ⟨-, hroom⟩ := p.room r hr hbin
  have hregions : regions (splitHeap h b s).mem = regions h.mem := regions_splitMem
  refine ⟨r, by rw [hregions]; exact hr, hbin, ?_⟩
  show b + blockSize + get (splitMem h.mem b s) .size b ≤ r.stop
  rw [p.size_old l, ← p.additional_eq l]
  exact (Nat.le_add_right _ blockSize).trans hroom

/-- The block that `mymalloc` returns, if it is not a new one, is the one that was found. -/
theorem mymalloc_found (o : Walks (initHeap h cpus env.heads))
    (hcall : mymalloc h cpus env s = .ok (h', payload b))
    (hlist : OnList (initHeap h cpus env.heads) env.find b)
    (hfits : Fits (initHeap h cpus env.heads).mem s b) :
    Found (initHeap h cpus env.heads) env.find s b := by
  obtain ⟨⟨h₁, d⟩, hfind, -⟩ := bind_eq_ok.mp hcall
  obtain ⟨rfl, hfound⟩ := findOptimalFreeBlock_cases hfind
  rcases o.found hfound with ⟨-, hnone⟩ | ⟨hd, hlist', -⟩
  · exact absurd hfits (hnone b hlist)
  · have hmem := o.listed hlist'
    have hpayload : payload b = payload d := by
      rw [mymalloc_of_found hfind hd (o.header hmem)] at hcall
      split at hcall
      · obtain ⟨h₂, -, hcall⟩ := bind_eq_ok.mp hcall
        rw [pure_eq_ok, Except.ok.injEq, Prod.mk.injEq] at hcall
        exact hcall.2.symm
      · rw [Except.ok.injEq, Prod.mk.injEq] at hcall
        exact hcall.2.symm
    rw [o.payload_eq hmem, o.payload_eq (o.listed hlist)] at hpayload
    rw [Nat.add_right_cancel hpayload]
    exact hfound

/-- **The block that is handed out lies in its region**, under the condition. -/
theorem Walks.inRegion (o : Walks (initHeap h cpus env.heads))
    (hfresh : ∀ a, env.answer = some a →
      Fresh (initHeap h cpus env.heads).mem (request s a).1)
    (hstays : StaysInside (initHeap h cpus env.heads) env s)
    (hcall : mymalloc h cpus env s = .ok (h', b + blockSize)) : InRegion h' b := by
  have houtcome := o.mymalloc_cases hfresh hstays.splitsInside hcall
  generalize hq : b + blockSize = q at houtcome hcall
  cases houtcome with
  | @reuse c hlist hfits hwhole =>
    have hc := o.listed hlist
    obtain rfl : b = c := Nat.add_right_cancel (hq.trans (o.payload_eq hc))
    obtain ⟨r, hr, hin, -⟩ := o.home b hc
    have hfound := mymalloc_found o hcall hlist hfits
    refine ⟨r, ?_, hin, ?_⟩
    · rw [claim, regions_set]
      exact hr
    · rw [claim, get_set_of_ne _ _ _ (by decide)]
      exact (hstays.1 b hfound (o.ne_zero hc) r hr hin).whole hwhole
  | @reuseSplit c hlist hfits hsplit =>
    have hc := o.listed hlist
    obtain rfl : b = c := Nat.add_right_cancel (hq.trans (o.payload_eq hc))
    exact hsplit.inRegion (o.toLayout.set_field hc (by decide) 0)
  | refused => exact absurd hq (Nat.succ_ne_zero (b + 23))
  | @extend c last h' hnone hanswer hwalk hlink hwhole =>
    have hc := hfresh c hanswer
    have l' := hlink.layout o.toLayout hc (o.last hwalk)
    have hmem : c ∈ h'.created := hlink.mem_created.mpr (Or.inr rfl)
    obtain rfl : b = c := Nat.add_right_cancel (hq.trans (l'.payload_eq hmem))
    refine ⟨(request s b).1, ?_, (request_spec hc.stop).1, ?_⟩
    · rw [hlink.regions_eq]
      exact List.mem_cons_self
    · rw [hlink.size_new o.toLayout hc (o.last hwalk)]
      exact (hstays.2 b hanswer hnone).whole hwhole
  | @extendSplit c last h₁ hnone hanswer hwalk hlink hsplit =>
    have l' := hlink.layout o.toLayout (hfresh c hanswer) (o.last hwalk)
    obtain rfl : b = c := Nat.add_right_cancel (hq.trans (l'.payload_eq hsplit.mem))
    exact hsplit.inRegion l'

/-- No region is given back. -/
theorem MallocOutcome.regions_subset (houtcome : MallocOutcome h env s h' q) :
    ∀ r ∈ regions h.mem, r ∈ regions h'.mem := by
  intro r hr
  cases houtcome with
  | reuse =>
    rw [claim, regions_set]
    exact hr
  | reuseSplit =>
    rw [splitHeap, regions_splitMem, claim, regions_set]
    exact hr
  | refused => exact hr
  | extend _ _ _ hlink =>
    rw [hlink.regions_eq]
    exact List.mem_cons_of_mem _ hr
  | extendSplit _ _ _ hlink =>
    rw [splitHeap, regions_splitMem, hlink.regions_eq]
    exact List.mem_cons_of_mem _ hr

end Inside

/-! ## Bytes outside the headers -/

variable {h h' : Heap Memory} {cpu cpus s b c q : ℕ} {env : Environment}

/-- The byte is in the header of no block. -/
def OffHeaders (h : Heap Memory) (x : ℕ) : Prop :=
  ∀ c ∈ h.created, x < c ∨ c + blockSize ≤ x

/-- A byte of a payload that lies in its region. -/
theorem Layout.offHeaders (l : Layout h) (hb : b ∈ h.created) (hin : InRegion h b) {x : ℕ}
    (hx₀ : b + blockSize ≤ x) (hx₁ : x < b + blockSize + get h.mem .size b) :
    OffHeaders h x := by
  intro c hc
  rcases l.header_off_payload hb hin hc with hlt | hlt
  · exact Or.inr (hlt.trans hx₀)
  · exact Or.inl (Nat.lt_of_lt_of_le hx₁ hlt)

/-- A split writes the two headers. -/
theorem bytes_splitHeap {x : ℕ} (hb : b ∈ h.created) (hx : OffHeaders (splitHeap h b s) x) :
    (splitHeap h b s).mem.bytes x = h.mem.bytes x := by
  have hold := hx b (List.mem_append_left _ hb)
  have hnew := hx (additionalBlock b s) (List.mem_append_right _ List.mem_cons_self)
  show (splitMem h.mem b s).bytes x = h.mem.bytes x
  rw [splitMem, bytes_set_of_header _ _ _ _ hold, bytes_set_of_header _ _ _ _ hold,
    bytes_withHeader _ _ _ _ _ hnew]

/-- A new block writes its own header and the link of the last block. -/
theorem Linked.bytes_eq {a last x : ℕ} (k : Linked h cpu last s a h')
    (hlast : last = 0 ∨ last ∈ h.created) (hx : OffHeaders h' x) :
    h'.mem.bytes x = h.mem.bytes x := by
  have hnew : x < a ∨ a + blockSize ≤ x := hx a (k.mem_created.mpr (Or.inr rfl))
  have hextended : (extendedMem h.mem s a).bytes x = h.mem.bytes x := by
    rw [extendedMem, bytes_withHeader _ _ _ _ _ hnew]
    rfl
  have hlink : last ≠ 0 → x < last ∨ last + blockSize ≤ x := fun hne =>
    hx last (k.mem_created.mpr (Or.inl (hlast.resolve_left hne)))
  cases k with
  | head => exact hextended
  | behind hne => exact (bytes_set_of_header _ _ _ _ (hlink hne)).trans hextended

/-- **`mymalloc` writes into headers only.** -/
theorem Walks.bytes_malloc (o : Walks h) (houtcome : MallocOutcome h env s h' q) {x : ℕ}
    (hx : OffHeaders h' x) : h'.mem.bytes x = h.mem.bytes x := by
  have hclaim : ∀ {b}, OnList h env.find b → OffHeaders h x →
      (claim h b).mem.bytes x = h.mem.bytes x := fun hlist hoff =>
    bytes_set_of_header _ _ _ _ (hoff _ (o.listed hlist))
  cases houtcome with
  | reuse hlist => exact hclaim hlist hx
  | @reuseSplit b hlist =>
    have hmem : b ∈ (claim h b).created := o.listed hlist
    refine (bytes_splitHeap hmem hx).trans (hclaim hlist fun c hc => ?_)
    exact hx c (List.mem_append_left _ hc)
  | refused => rfl
  | extend _ _ hwalk hlink => exact hlink.bytes_eq (o.last hwalk) hx
  | extendSplit _ _ hwalk hlink hsplit =>
    refine (bytes_splitHeap hsplit.mem hx).trans (hlink.bytes_eq (o.last hwalk) fun c hc => ?_)
    exact hx c (List.mem_append_left _ hc)

/-! ## Bytes inside a payload -/

/-- **Writing into a payload that lies in its region** changes no header. -/
theorem Layout.get_of_payload (l : Layout h) (hb : b ∈ h.created) (hin : InRegion h b)
    {m : Memory} (hbytes : ∀ x, x < b + blockSize ∨ b + blockSize + get h.mem .size b ≤ x →
      m.bytes x = h.mem.bytes x) (hc : c ∈ h.created) (f : Field) :
    get m f c = get h.mem f c := by
  refine get_congr f fun x hx₀ hx₁ => hbytes x ?_
  rcases l.header_off_payload hb hin hc with hlt | hlt
  · exact Or.inl (Nat.lt_of_lt_of_le hx₁ hlt)
  · exact Or.inr (hlt.trans hx₀)

/-- The bytes of a payload that lies in its region can be accessed. -/
theorem InRegion.accessible (hin : InRegion h b) {n : ℕ} (hn : n ≤ get h.mem .size b) :
    h.mem.Accessible (b + blockSize) n := by
  obtain ⟨r, hr, ⟨hstart, -⟩, hstop⟩ := hin
  refine Memory.accessible_of_within _ hr ⟨?_, ?_⟩
  · exact hstart.trans (Nat.le_add_right b blockSize)
  · exact (Nat.add_le_add_left hn _).trans hstop

end AdvancedMemory
end SystemsProjects

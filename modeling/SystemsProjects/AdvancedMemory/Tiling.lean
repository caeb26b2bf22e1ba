import SystemsProjects.AdvancedMemory.Regions
import SystemsProjects.AdvancedMemory.LivePointers

/-!
# Small requests: the blocks tile their regions

A thread on one processor whose requests are of at most 4095 bytes, and who frees live
pointers only.  Then every region but the first, which holds the list heads, comes from
`sbrk` for one request, and the blocks carved out of it tile it: each byte of the region
belongs to exactly one block, as part of its header or of its payload.

That no block overlaps another is `Layout.tiles` with `Snug`; that none is missing is
`Tiling.covered`.  A new block covers its region, and the two halves of a split cover
what the block covered, because the size of the second half is computed without a
wrap-around.  `small_heap` puts the parts together.
-/

namespace SystemsProjects
namespace AdvancedMemory

open Lib Allocator BlockStore

variable {M : Type} [BlockStore M] {h h' : Heap M} {cpus cpu s a b c q : ℕ}
  {env : Environment}

/-! ## Blocks and regions -/

/-- The header and the payload of a block. -/
def extentOf (h : Heap M) (b : ℕ) : Extent := ⟨b, blockSize + get h.mem .size b⟩

/-- The regions that blocks are carved out of: all but the oldest one. -/
def blockRegions (h : Heap M) : List Extent := (regions h.mem).dropLast

/-- **Every byte of the region belongs to one block**, and no block reaches over it. -/
structure Tiled (h : Heap M) (r : Extent) : Prop where
  within : ∀ b ∈ h.created, Holds r b → (extentOf h b).Within r
  once : ∀ x, r.start ≤ x → x < r.stop →
    ∃! b, b ∈ h.created ∧ (extentOf h b).start ≤ x ∧ x < (extentOf h b).stop

/-- The blocks of a thread on processor `cpu` cover the regions. -/
structure Tiling (h : Heap M) (cpu : ℕ) : Prop where
  unused : h.blockHead = .null → regions h.mem = [] ∧ h.created = []
  used : ∀ lists, h.blockHead = .array lists → regions h.mem ≠ []
  covered : ∀ r ∈ blockRegions h, ∀ x, r.start ≤ x → x < r.stop →
    ∃ b ∈ h.created, b ≤ x ∧ x < b + blockSize + get h.mem .size b
  inside : ∀ b ∈ h.created, ∃ r ∈ blockRegions h, Holds r b
  elsewhere : ∀ x, x ≠ cpu → h.listHead x = 0

theorem mem_regions_of_block {r : Extent} (hr : r ∈ blockRegions h) : r ∈ regions h.mem :=
  List.mem_of_mem_dropLast hr

/-- **Two blocks do not overlap.** -/
theorem Snug.block_before (hsnug : Snug h) (l : Layout h) (hb : b ∈ h.created)
    (hc : c ∈ h.created) (hbc : b < c) : b + blockSize + get h.mem .size b ≤ c := by
  obtain ⟨r, hr, hbin, -⟩ := l.home b hb
  obtain ⟨r', hr', hcin, -⟩ := l.home c hc
  have hend := hsnug b hb r hr hbin
  by_cases heq : r = r'
  · rw [← heq] at hcin
    exact l.tiles r hr b hb c hc hbin hcin hbc
  · rcases l.regions_disjoint hr hr' heq with hlt | hlt
    · exact hend.trans (hlt.trans hcin.1)
    · have hover : c + blockSize ≤ b := hcin.2.trans (hlt.trans hbin.1)
      omega

theorem Snug.extents_disjoint (hsnug : Snug h) (l : Layout h) (hb : b ∈ h.created)
    (hc : c ∈ h.created) (hne : b ≠ c) : (extentOf h b).Disjoint (extentOf h c) := by
  simp only [Extent.Disjoint, Extent.stop, extentOf]
  rcases Nat.lt_or_gt_of_ne hne with hlt | hlt
  · have hbefore := hsnug.block_before l hb hc hlt
    omega
  · have hbefore := hsnug.block_before l hc hb hlt
    omega

namespace Tiling

/-! ## Changes that move no block -/

theorem of_fields (t : Tiling h cpu) (hheads : h'.blockHead = h.blockHead)
    (hregions : regions h'.mem = regions h.mem) (hcreated : h'.created = h.created)
    (hsize : ∀ b ∈ h.created, get h'.mem .size b = get h.mem .size b) : Tiling h' cpu where
  unused hnull := by
    rw [hregions, hcreated]
    exact t.unused (hheads ▸ hnull)
  used lists harray := by
    rw [hregions]
    exact t.used lists (hheads ▸ harray)
  covered r hr x h₀ h₁ := by
    rw [blockRegions, hregions] at hr
    obtain ⟨b, hb, hx⟩ := t.covered r hr x h₀ h₁
    rw [hcreated]
    exact ⟨b, hb, by rw [hsize b hb]; exact hx⟩
  inside b hb := by
    rw [hcreated] at hb
    rw [blockRegions, hregions]
    exact t.inside b hb
  elsewhere x hx := by
    rw [Heap.listHead, hheads]
    exact t.elsewhere x hx

theorem set_field (t : Tiling h cpu) (l : Layout h) (hb : b ∈ h.created) {f : Field}
    (hf : f ≠ .size) (v : ℕ) : Tiling { h with mem := set h.mem f b v } cpu :=
  t.of_fields rfl (regions_set _ _ _ _) rfl fun _ hc => l.get_set hb hc v (Or.inr hf.symm)

/-! ## Splitting -/

/-- **The halves of a split cover what the block covered.** -/
theorem split (t : Tiling h cpu) (l : Layout h) (p : CanSplit h b s) :
    Tiling (splitHeap h b s) cpu := by
  have hsize := p.size
  have hadditional := p.additional_eq l
  have hregions : blockRegions (splitHeap h b s) = blockRegions h :=
    congrArg List.dropLast regions_splitMem
  have hcreated : (splitHeap h b s).created = h.created ++ [additionalBlock b s] := rfl
  have hold : b ∈ (splitHeap h b s).created := List.mem_append_left _ p.mem
  have hnew : additionalBlock b s ∈ (splitHeap h b s).created :=
    List.mem_append_right _ List.mem_cons_self
  refine
    { unused := fun hnull => ?_, used := fun lists harray => ?_, covered := ?_, inside := ?_,
      elsewhere := t.elsewhere }
  · have hempty := (t.unused hnull).2
    have hmem := p.mem
    rw [hempty] at hmem
    exact absurd hmem List.not_mem_nil
  · rw [splitHeap, regions_splitMem]
    exact t.used lists harray
  · rw [hregions]
    intro r hr x h₀ h₁
    obtain ⟨d, hd, hx₀, hx₁⟩ := t.covered r hr x h₀ h₁
    by_cases hdb : d = b
    · rw [hdb] at hx₀ hx₁
      by_cases hx : x < additionalBlock b s
      · refine ⟨b, hold, hx₀, ?_⟩
        rw [splitHeap, p.size_old l]
        omega
      · refine ⟨additionalBlock b s, hnew, Nat.le_of_not_lt hx, ?_⟩
        rw [splitHeap, p.size_new l]
        omega
    · refine ⟨d, List.mem_append_left _ hd, hx₀, ?_⟩
      rw [splitHeap, p.get_other l hd hdb]
      exact hx₁
  · rw [hregions, hcreated]
    intro d hd
    rcases List.mem_append.mp hd with hd | hd
    · exact t.inside d hd
    · obtain ⟨r, hr, hbin⟩ := t.inside b p.mem
      rw [List.mem_singleton.mp hd]
      exact ⟨r, hr, p.room r (mem_regions_of_block hr) hbin⟩

/-! ## New regions -/

/-- **A block from `sbrk` covers its region.** -/
theorem linked (t : Tiling h cpu) (l : Layout h) (hsmall : s ≤ 4095) {last lastCpu : ℕ}
    (hfresh : Fresh h.mem (request s a).1) (hlast : last = 0 ∨ last ∈ h.created)
    (hwalk : getLastBlock h lastCpu = .ok last) (k : Linked h cpu last s a h') :
    Tiling h' cpu := by
  have hrequest : request s a = (⟨a, s + blockSize⟩, s) := if_neg (Nat.not_lt.mpr hsmall)
  have hstarted : ∃ lists, h.blockHead = .array lists := by
    rw [getLastBlock] at hwalk
    obtain ⟨list, hhead, -⟩ := bind_eq_ok.mp hwalk
    rw [Heap.head] at hhead
    generalize h.blockHead = heads at hhead
    cases heads with
    | null => cases hhead
    | failed => cases hhead
    | array lists => exact ⟨lists, rfl⟩
  obtain ⟨lists, harray⟩ := hstarted
  have hne := t.used lists harray
  have hregions : blockRegions h' = (request s a).1 :: blockRegions h := by
    rw [blockRegions, k.regions_eq, List.dropLast_cons_of_ne_nil hne, blockRegions]
  have hnew : a ∈ h'.created := k.mem_created.mpr (Or.inr rfl)
  refine
    { unused := fun hnull => ?_, used := fun _ _ => ?_, covered := ?_, inside := ?_,
      elsewhere := fun x hx => ?_ }
  · cases k with
    | head => cases hnull
    | behind => rw [show h.blockHead = .null from hnull] at harray; cases harray
  · rw [k.regions_eq]
    exact List.cons_ne_nil _ _
  · rw [hregions]
    intro r hr x h₀ h₁
    rcases List.mem_cons.mp hr with rfl | hr
    · refine ⟨a, hnew, ?_, ?_⟩
      · rw [hrequest] at h₀
        exact h₀
      · rw [k.size_new l hfresh hlast, hrequest]
        rw [hrequest, Extent.stop] at h₁
        dsimp only at h₁ ⊢
        omega
    · obtain ⟨b, hb, hx⟩ := t.covered r hr x h₀ h₁
      refine ⟨b, k.mem_created.mpr (Or.inl hb), ?_⟩
      rw [k.get_old l hfresh hlast hb (by decide)]
      exact hx
  · rw [hregions]
    intro d hd
    rcases k.mem_created.mp hd with hd | rfl
    · obtain ⟨r, hr, hin⟩ := t.inside d hd
      exact ⟨r, List.mem_cons_of_mem _ hr, hin⟩
    · exact ⟨_, List.mem_cons_self, (request_spec hfresh.stop).1⟩
  · have hzero := t.elsewhere x hx
    cases k with
    | behind => exact hzero
    | head hnull hheads hcpu =>
      rw [listHead_set hheads hcpu rfl, Function.update_of_ne hx]
      exact hzero

/-- The first region holds the list heads, and no block. -/
theorem init (t : Tiling h cpu) (cpus : ℕ) (answer : Option ℕ) :
    Tiling (initHeap h cpus answer) cpu := by
  rw [initHeap]
  by_cases hnull : h.blockHead = .null
  · rw [if_pos hnull]
    obtain ⟨hregions, hcreated⟩ := t.unused hnull
    obtain ⟨hmem, hheads, hcreated'⟩ := initLocks_fields (allocateHeads h cpus answer) cpus
    suffices hset : Tiling (allocateHeads h cpus answer) cpu by
      exact hset.of_fields hheads (by rw [hmem]) hcreated' fun b _ => by rw [hmem]
    have hnone : ∀ g : Heap M, g.created = h.created → ∀ b ∈ g.created, False := by
      intro g hg b hb
      rw [hg, hcreated] at hb
      exact absurd hb List.not_mem_nil
    cases answer with
    | none =>
      refine
        { unused := fun hc => ?_, used := fun _ hc => ?_, covered := ?_, inside := ?_,
          elsewhere := fun x hx => rfl }
      · cases hc
      · cases hc
      · intro r hr
        rw [blockRegions, allocateHeads, hregions] at hr
        exact absurd hr List.not_mem_nil
      · exact fun b hb => (hnone _ rfl b hb).elim
    | some x =>
      have hsingle : regions (allocateHeads h cpus (some x)).mem = [⟨x, 8 * cpus⟩] := by
        rw [allocateHeads, regions_map, hregions]
      refine
        { unused := fun hc => ?_, used := fun _ _ => ?_, covered := ?_, inside := ?_,
          elsewhere := fun y _ => ?_ }
      · cases hc
      · rw [hsingle]
        exact List.cons_ne_nil _ _
      · intro r hr
        rw [blockRegions, hsingle] at hr
        exact absurd hr List.not_mem_nil
      · exact fun b hb => (hnone _ rfl b hb).elim
      · exact listHead_allocateHeads (some x) y
  · rw [if_neg hnull]
    exact t

/-- `mymalloc` of a small request keeps the tiling. -/
theorem malloc (t : Tiling h cpu) (o : Ordered h) (hsmall : s ≤ 4095) (hcpu : env.extend = cpu)
    (hfresh : ∀ a, env.answer = some a → Fresh h.mem (request s a).1)
    (houtcome : MallocOutcome h env s h' q) : Tiling h' cpu := by
  cases houtcome with
  | reuse hlist => exact t.set_field o.toLayout (o.mem_of_onList hlist) (by decide) 0
  | reuseSplit hlist _ hsplit =>
    have hb := o.mem_of_onList hlist
    exact (t.set_field o.toLayout hb (by decide) 0).split (o.take hb).toLayout hsplit
  | refused => exact t
  | extend _ hanswer hwalk hlink =>
    rw [hcpu] at hlink
    exact t.linked o.toLayout hsmall (hfresh _ hanswer) (o.last_mem hwalk) hwalk hlink
  | extendSplit _ hanswer hwalk hlink hsplit =>
    rw [hcpu] at hlink
    have hlast := o.last_mem hwalk
    exact (t.linked o.toLayout hsmall (hfresh _ hanswer) hlast hwalk hlink).split
      (hlink.layout o.toLayout (hfresh _ hanswer) hlast) hsplit

/-- **The tiling**, from the cover and the order of the blocks. -/
theorem tiled (t : Tiling h cpu) (l : Layout h) (hsnug : Snug h) {r : Extent}
    (hr : r ∈ blockRegions h) : Tiled h r where
  within b hb hin := by
    refine ⟨hin.1, ?_⟩
    rw [extentOf, Extent.stop, ← Nat.add_assoc]
    exact hsnug b hb r (mem_regions_of_block hr) hin
  once x h₀ h₁ := by
    obtain ⟨b, hb, hx₀, hx₁⟩ := t.covered r hr x h₀ h₁
    refine ⟨b, ⟨hb, hx₀, ?_⟩, ?_⟩
    · rw [extentOf, Extent.stop, ← Nat.add_assoc]
      exact hx₁
    · rintro c ⟨hc, hc₀, hc₁⟩
      by_contra hne
      have hdisjoint := hsnug.extents_disjoint l hc hb hne
      simp only [Extent.Disjoint, Extent.stop, extentOf] at hdisjoint hc₀ hc₁
      omega

/-- **The list of the processor** runs through every block. -/
theorem list (t : Tiling h cpu) (o : Ordered h) :
    ∃ l, Visits 0 (get h.mem .next) (h.listHead cpu) l ∧ l.Nodup ∧
      ∀ b, b ∈ l ↔ b ∈ h.created := by
  obtain ⟨chain, c⟩ := o.lists
  have hvisits := c.family.visits cpu
  refine ⟨chain cpu, hvisits, hvisits.nodup, fun b => ?_⟩
  rw [c.created]
  refine ⟨fun hb => ⟨cpu, hb⟩, fun ⟨x, hb⟩ => ?_⟩
  by_cases hx : x = cpu
  · exact hx ▸ hb
  · have hnil : chain x = [] := (c.family.visits x).eq_null_iff.mp (t.elsewhere x hx)
    rw [hnil] at hb
    exact absurd hb List.not_mem_nil

end Tiling

/-! ## Programs -/

/-- The heap, and the live pointers with the sizes that were asked for. -/
structure Program where
  heap : Heap Memory
  live : List (ℕ × ℕ)

/-- The live pointers after a call that returned `out`. -/
def Program.liveAfter (p : Program) (out : ℕ) : Call → List (ℕ × ℕ)
  | .malloc s _ => if out = 0 then p.live else (out, s) :: p.live
  | .free _ ptr => p.live.filter fun e => e.1 ≠ ptr

/-- Small requests on processor `cpu`, and live pointers (or NULL) for `myfree`. -/
def Call.Small (cpus cpu : ℕ) (p : Program) : Call → Prop
  | .malloc s env => s ≤ 4095 ∧ (Call.malloc s env).Pinned cpu ∧
      (Call.malloc s env).Allowed cpus p.heap
  | .free c ptr => c = cpu ∧ (ptr = 0 ∨ ptr ∈ p.live.map Prod.fst)

/-- A small call on one processor, with the pointers that the program has then. -/
def SmallStep (cpus cpu : ℕ) (p : Program) (c : Call) (out : ℕ) (p' : Program) : Prop :=
  c.Small cpus cpu p ∧ perform cpus p.heap c = .ok (p'.heap, out) ∧ p'.live = p.liveAfter out c

/-- Before the first call. -/
structure Program.Initial (p : Program) : Prop where
  heap : AdvancedMemory.Initial p.heap
  live : p.live = []

/-- The payload behind a live pointer: as many bytes as its header says. -/
def payloadAt (h : Heap Memory) (ptr : ℕ) : Extent := ⟨ptr, get h.mem .size (headerOf ptr)⟩

/-- **The heap of small requests.** -/
structure SmallHeap (cpu : ℕ) (p : Program) : Prop where
  /-- every region for blocks is tiled by the blocks in it -/
  tiled : ∀ r ∈ blockRegions p.heap, Tiled p.heap r
  inside : ∀ b ∈ p.heap.created, ∃ r ∈ blockRegions p.heap, (extentOf p.heap b).Within r
  /-- the list of the processor ends, and every block is on it once -/
  list : ∃ l, Visits 0 (get p.heap.mem .next) (p.heap.listHead cpu) l ∧ l.Nodup ∧
    ∀ b, b ∈ l ↔ b ∈ p.heap.created
  /-- live payloads are large enough -/
  large : ∀ e ∈ p.live, e.2 ≤ (payloadAt p.heap e.1).len
  payloads : p.live.Pairwise fun d e =>
    (payloadAt p.heap d.1).Disjoint (payloadAt p.heap e.1)
  headers : ∀ e ∈ p.live, ∀ b ∈ p.heap.created,
    (payloadAt p.heap e.1).Disjoint ⟨b, blockSize⟩

/-! ## Live pointers -/

namespace LiveBlocks

variable {h h' : Heap Memory} {live : List (ℕ × ℕ)}

/-- The block of a live pointer. -/
theorem header (v : LiveBlocks h live) (l : Layout h) {e : ℕ × ℕ} (he : e ∈ live) :
    ∃ b ∈ h.created, e.1 = b + blockSize ∧ payloadAt h e.1 = ⟨b + blockSize, get h.mem .size b⟩ ∧
      e.2 ≤ get h.mem .size b := by
  obtain ⟨b, hb, heb, -, hle⟩ := v.block e he
  have hbound := l.header_bound hb
  refine ⟨b, hb, heb, ?_, hle⟩
  rw [payloadAt, heb, headerOf_add (by omega)]

end LiveBlocks

/-! ## Runs -/

/-- The invariant of the runs. -/
structure SmallInvariant (cpu : ℕ) (p : Program) : Prop where
  ordered : Ordered p.heap
  snug : Snug p.heap
  tiling : Tiling p.heap cpu
  live : LiveBlocks p.heap p.live

namespace SmallInvariant

variable {p p' : Program}

theorem of_initial (hinit : p.Initial) : SmallInvariant cpu p where
  ordered := ordered_of_initial hinit.heap
  snug b hb := by
    rw [hinit.heap.created] at hb
    exact absurd hb List.not_mem_nil
  tiling :=
    { unused := fun _ => ⟨hinit.heap.regions, hinit.heap.created⟩
      used := fun lists harray => by
        rw [hinit.heap.blockHead] at harray
        cases harray
      covered := fun r hr => by
        rw [blockRegions, hinit.heap.regions] at hr
        exact absurd hr List.not_mem_nil
      inside := fun b hb => by
        rw [hinit.heap.created] at hb
        exact absurd hb List.not_mem_nil
      elsewhere := fun x _ => by
        rw [Heap.listHead, hinit.heap.blockHead] }
  live := by
    rw [hinit.live]
    exact LiveBlocks.nil _

/-- **One call** keeps the invariant. -/
theorem step (i : SmallInvariant cpu p) {c : Call} (hstep : SmallStep cpus cpu p c q p') :
    SmallInvariant cpu p' := by
  obtain ⟨heap', live'⟩ := p'
  obtain ⟨hsmall, hcall, hlive⟩ := hstep
  obtain rfl : live' = p.liveAfter q c := hlive
  dsimp only at hcall
  cases c with
  | malloc s env =>
    obtain ⟨hs, hpinned, -, -, hheads, hfresh⟩ := hsmall
    have hcond : NoneFits (initHeap p.heap cpus env.heads) env s → env.answer ≠ none → s ≤ 4095 :=
      fun _ _ => hs
    have o₁ := i.ordered.init hheads
    have hsnug₁ := i.snug.init i.ordered.toLayout hheads
    have t₁ := i.tiling.init cpus env.heads
    have houtcome := o₁.walks.mymalloc_cases hfresh (hsnug₁.splitsInside o₁ hcond) hcall
    refine ⟨o₁.malloc (fun _ _ hempty => ?_) hfresh houtcome,
      hsnug₁.malloc o₁ hcond hfresh houtcome,
      t₁.malloc o₁ hs hpinned.2.1 hfresh houtcome,
      (i.live.init (fun hnull => (i.tiling.unused hnull).2) cpus env.heads).malloc o₁.walks
        hfresh houtcome⟩
    rw [hpinned.2.1, ← hpinned.2.2.1]
    exact hempty
  | free c ptr =>
    obtain ⟨-, hptr⟩ := hsmall
    obtain ⟨h₁, hfree, hcall⟩ := bind_eq_ok.mp hcall
    rw [pure_eq_ok, Except.ok.injEq, Prod.mk.injEq] at hcall
    obtain rfl := hcall.1
    rcases hptr with rfl | hptr
    · rw [myfree_null] at hfree
      obtain rfl := Except.ok.inj hfree
      refine ⟨i.ordered, i.snug, i.tiling, fun e he => ?_, ?_⟩
      · exact i.live.block e (List.mem_filter.mp he).1
      · exact i.live.once.sublist (List.filter_sublist.map _)
    · obtain ⟨e, he, rfl⟩ := List.mem_map.mp hptr
      obtain ⟨b, hb, heb, hzero, -⟩ := i.live.block e he
      have hbound := i.ordered.header_bound hb
      rw [heb, myfree_eq (by omega) (i.ordered.header hb), hzero] at hfree
      split at hfree
      · cases hfree
      · rw [if_neg (by decide)] at hfree
        obtain rfl := Except.ok.inj hfree
        rw [heb]
        exact ⟨i.ordered.setFree hb 1, i.snug.set_field i.ordered.toLayout hb (by decide) 1,
          i.tiling.set_field i.ordered.toLayout hb (by decide) 1,
          i.live.free (i.ordered.toLayout.kept_setFree hb 1)⟩

theorem smallHeap (i : SmallInvariant cpu p) : SmallHeap cpu p := by
  have l := i.ordered.toLayout
  refine
    { tiled := fun r hr => i.tiling.tiled l i.snug hr, inside := fun b hb => ?_,
      list := i.tiling.list i.ordered, large := fun e he => ?_, payloads := ?_,
      headers := fun e he c hc => ?_ }
  · obtain ⟨r, hr, hin⟩ := i.tiling.inside b hb
    exact ⟨r, hr, (i.tiling.tiled l i.snug hr).within b hb hin⟩
  · obtain ⟨b, -, -, hpayload, hle⟩ := i.live.header l he
    rw [hpayload]
    exact hle
  · have honce := i.live.once
    rw [List.Nodup, List.pairwise_map] at honce
    refine honce.imp_of_mem fun {d e} hd he hne => ?_
    obtain ⟨b, hb, hdb, hpayload, -⟩ := i.live.header l hd
    obtain ⟨c, hc, hec, hpayload', -⟩ := i.live.header l he
    have hbc : b ≠ c := fun h => hne (by rw [hdb, hec, h])
    have hdisjoint := i.snug.extents_disjoint l hb hc hbc
    rw [hpayload, hpayload']
    simp only [Extent.Disjoint, Extent.stop, extentOf] at hdisjoint ⊢
    omega
  · obtain ⟨b, hb, heb, hpayload, -⟩ := i.live.header l he
    rw [hpayload]
    by_cases hbc : b = c
    · rw [hbc]
      exact Or.inr (Nat.le_refl _)
    · have hdisjoint := i.snug.extents_disjoint l hb hc hbc
      simp only [Extent.Disjoint, Extent.stop, extentOf] at hdisjoint ⊢
      omega

end SmallInvariant

/-- **The heap of small requests, over whole runs.** -/
theorem small_heap (cpus cpu : ℕ) (p₀ p : Program) (hinit : p₀.Initial)
    (tr : List (Call × ℕ)) (hrun : Run (SmallStep cpus cpu) p₀ tr p) : SmallHeap cpu p :=
  (hrun.invariant (P := SmallInvariant cpu) (fun _ _ _ _ i hs => i.step hs)
    (SmallInvariant.of_initial hinit)).smallHeap

/-- In the run of `smallTrace` the region is split at 8226, and the first half is given
out again. -/
theorem small_heap_split : ∃ p : Program,
    p.live = [(8216, 10)] ∧ p.heap.created = [8192, 8226] ∧ SmallHeap 0 p := by
  obtain ⟨p, hrun, hlive, hcreated⟩ : ∃ p,
      Run (SmallStep 1 0) ⟨emptyHeap, []⟩ smallTrace p ∧ p.live = [(8216, 10)] ∧
        p.heap.created = [8192, 8226] := by
    refine ⟨⟨_, _⟩, Run.cons (t := ⟨_, _⟩) ⟨⟨by decide, ⟨rfl, rfl, rfl, rfl⟩, ?_⟩, rfl, rfl⟩
      (Run.cons (t := ⟨_, _⟩) ⟨⟨rfl, Or.inr (by decide)⟩, rfl, rfl⟩
      (Run.cons (t := ⟨_, _⟩) ⟨⟨by decide, ⟨rfl, rfl, rfl, rfl⟩, ?_⟩, rfl, rfl⟩ (Run.nil _))),
      rfl, rfl⟩
    · refine ⟨by decide, by decide, fun x _ hx => ?_, fun a ha => ?_⟩
      · rw [← Option.some.inj hx]
        decide
      · rw [← Option.some.inj ha]
        decide
    · refine ⟨by decide, by decide, fun x _ hx => ?_, fun a ha => ?_⟩
      · cases hx
      · cases ha
  exact ⟨p, hlive, hcreated, small_heap 1 0 ⟨emptyHeap, []⟩ p ⟨initial_emptyHeap, rfl⟩ _ hrun⟩

end AdvancedMemory
end SystemsProjects

import SystemsProjects.AdvancedMemory.Migration

/-!
# Blocks inside their regions

A thread that stays on one processor.  A block from `sbrk` ends where its region ends,
and a split leaves the end where it is.  A block from `mmap` has the length of its
region recorded as the size of its payload, and so its payload ends 24 bytes behind
the region (`not_blocks_inside`).

As long as no call is answered by `mmap`, every block on the list lies inside its region
(`blocks_inside_of_run`).  Here `Snug` is the invariant: no block reaches over the end
of the region that holds its header.
-/

namespace SystemsProjects
namespace AdvancedMemory

open Lib Allocator BlockStore

variable {M : Type} [BlockStore M] {h h' : Heap M} {cpus cpu s a b q : ℕ} {env : Environment}

/-- Every block on the list of the processor lies, with its payload, inside one of the
regions that the operating system has handed out. -/
def BlocksInside (h : Heap M) (cpu : ℕ) : Prop :=
  ∀ b, OnList h cpu b →
    ∃ r ∈ regions h.mem, (⟨b, blockSize + get h.mem .size b⟩ : Extent).Within r

/-- The call is made on one processor. -/
def Call.Pinned (cpu : ℕ) : Call → Prop
  | .malloc _ env => env.find = cpu ∧ env.extend = cpu ∧ env.last = cpu ∧ env.split = cpu
  | .free c _ => c = cpu

theorem Call.Pinned.eq_pinned (hpinned : (Call.malloc s env).Pinned cpu) :
    env = AdvancedMemory.pinned cpu env.heads env.answer := by
  obtain ⟨find, extend, last, split, heads, answer⟩ := env
  simp only [Call.Pinned] at hpinned
  obtain ⟨rfl, rfl, rfl, rfl⟩ := hpinned
  rfl

/-- The calls of a thread on one processor. -/
def PinnedStep (cpus cpu : ℕ) (h : Heap M) (c : Call) (out : ℕ) (h' : Heap M) : Prop :=
  c.Pinned cpu ∧ Step cpus h c out h'

/-- **`mmap` is not used**: the request is small, or a free block of the list is large
enough, or the operating system refuses. -/
def Call.WithoutMmap (cpus : ℕ) (h : Heap M) : Call → Prop
  | .malloc s env => NoneFits (initHeap h cpus env.heads) env s → env.answer ≠ none → s ≤ 4095
  | .free _ _ => True

/-- No block reaches over the end of its region. -/
def Snug (h : Heap M) : Prop :=
  ∀ b ∈ h.created, ∀ r ∈ regions h.mem, Holds r b → b + blockSize + get h.mem .size b ≤ r.stop

namespace Snug

theorem of_fields (hsnug : Snug h) (hregions : regions h'.mem = regions h.mem)
    (hcreated : h'.created = h.created)
    (hsize : ∀ b ∈ h.created, get h'.mem .size b = get h.mem .size b) : Snug h' := by
  intro b hb r hr hin
  rw [hcreated] at hb
  rw [hregions] at hr
  rw [hsize b hb]
  exact hsnug b hb r hr hin

theorem set_field (hsnug : Snug h) (l : Layout h) (hb : b ∈ h.created) {f : Field}
    (hf : f ≠ .size) (v : ℕ) : Snug { h with mem := set h.mem f b v } :=
  hsnug.of_fields (regions_set _ _ _ _) rfl fun _ hc => l.get_set hb hc v (Or.inr hf.symm)

/-- A new region holds no block. -/
theorem map (hsnug : Snug h) (l : Layout h) {e : Extent} (hfresh : Fresh h.mem e) :
    Snug { h with mem := BlockStore.map h.mem e } := by
  intro b hb r hr hin
  rw [regions_map] at hr
  rw [get_map]
  rcases List.mem_cons.mp hr with rfl | hr
  · exact absurd hin (l.not_holds_fresh hfresh hb)
  · exact hsnug b hb r hr hin

/-- **The second half of a split ends where the block ended.** -/
theorem split (hsnug : Snug h) (l : Layout h) (p : CanSplit h b s) :
    Snug (splitHeap h b s) := by
  have hsize := p.size
  have hadditional := p.additional_eq l
  intro d hd r hr hin
  have hr : r ∈ regions h.mem := by
    rw [splitHeap, regions_splitMem] at hr
    exact hr
  rw [splitHeap, List.mem_append, List.mem_singleton] at hd
  show d + blockSize + get (splitMem h.mem b s) .size d ≤ r.stop
  rcases hd with hd | rfl
  · by_cases hdb : d = b
    · rw [hdb] at hin ⊢
      have hend := hsnug b p.mem r hr hin
      rw [p.size_old l]
      omega
    · rw [p.get_other l hd hdb]
      exact hsnug d hd r hr hin
  · obtain ⟨r', hr', hbin, -⟩ := l.home b p.mem
    rw [l.region_unique hr hr' hin (p.room r' hr' hbin), p.size_new l]
    have hend := hsnug b p.mem r' hr' hbin
    omega

/-- **A block from `sbrk` ends where its region ends.** -/
theorem linked (hsnug : Snug h) (l : Layout h) (hsmall : s ≤ 4095) {last : ℕ}
    (hfresh : Fresh h.mem (request s a).1) (hlast : last = 0 ∨ last ∈ h.created)
    (k : Linked h cpu last s a h') : Snug h' := by
  have hrequest : request s a = (⟨a, s + blockSize⟩, s) := if_neg (Nat.not_lt.mpr hsmall)
  have l' := k.layout l hfresh hlast
  have hnew : (request s a).1 ∈ regions h'.mem := by
    rw [k.regions_eq]
    exact List.mem_cons_self
  intro d hd r hr hin
  rcases k.mem_created.mp hd with hd | rfl
  · rw [k.get_old l hfresh hlast hd (by decide)]
    rw [k.regions_eq] at hr
    rcases List.mem_cons.mp hr with rfl | hr
    · exact absurd hin (l.not_holds_fresh hfresh hd)
    · exact hsnug d hd r hr hin
  · rw [l'.region_unique hr hnew hin (request_spec hfresh.stop).1, k.size_new l hfresh hlast,
      hrequest]
    simp only [Extent.stop]
    omega

theorem init (hsnug : Snug h) (l : Layout h) {answer : Option ℕ}
    (hfresh : ∀ x, h.blockHead = .null → answer = some x → Fresh h.mem ⟨x, 8 * cpus⟩) :
    Snug (initHeap h cpus answer) := by
  rw [initHeap]
  by_cases hheads : h.blockHead = .null
  · rw [if_pos hheads]
    obtain ⟨hmem, -, hcreated⟩ := initLocks_fields (allocateHeads h cpus answer) cpus
    suffices hset : Snug (allocateHeads h cpus answer) by
      exact hset.of_fields (by rw [hmem]) hcreated fun b _ => by rw [hmem]
    cases answer with
    | none => exact hsnug
    | some x => exact hsnug.map l (hfresh x hheads rfl)
  · rw [if_neg hheads]
    exact hsnug

/-- Splits stay inside if the blocks do. -/
theorem splitsInside (hsnug : Snug h) (o : Ordered h)
    (hsmall : NoneFits h env s → env.answer ≠ none → s ≤ 4095) : SplitsInside h env s := by
  constructor
  · intro b hfound hne r hr hin hsplit
    rcases o.found_cases hfound with ⟨hnull, -⟩ | ⟨-, hlist, hfits⟩
    · exact absurd hnull hne
    · have hb := o.mem_of_onList hlist
      have hend := hsnug b hb r hr hin
      have hbound := (o.bound r hr).2
      have hfit := hfits.1
      have hsize := add_le_of_splittable (by omega) hsplit
      rw [additionalBlock, Nat.mod_eq_of_lt (by omega)]
      obtain ⟨hstart, -⟩ := hin
      exact ⟨by omega, by omega⟩
  · intro a ha hnone hsplit
    have hs : s ≤ 4095 := hsmall hnone (by rw [ha]; exact Option.some_ne_none a)
    have hrequest : request s a = (⟨a, s + blockSize⟩, s) := if_neg (Nat.not_lt.mpr hs)
    have hsize := add_le_of_splittable (by omega) hsplit
    rw [hrequest] at hsize
    omega

/-- `mymalloc` keeps the blocks inside. -/
theorem malloc (hsnug : Snug h) (o : Ordered h)
    (hsmall : NoneFits h env s → env.answer ≠ none → s ≤ 4095)
    (hfresh : ∀ a, env.answer = some a → Fresh h.mem (request s a).1)
    (houtcome : MallocOutcome h env s h' q) : Snug h' := by
  have hsome : ∀ a, env.answer = some a → env.answer ≠ none := fun a ha => by
    rw [ha]
    exact Option.some_ne_none a
  cases houtcome with
  | reuse hlist => exact hsnug.set_field o.toLayout (o.mem_of_onList hlist) (by decide) 0
  | reuseSplit hlist _ hsplit =>
    have hb := o.mem_of_onList hlist
    exact (hsnug.set_field o.toLayout hb (by decide) 0).split (o.take hb).toLayout hsplit
  | refused => exact hsnug
  | extend hnone hanswer hwalk hlink =>
    exact hsnug.linked o.toLayout (hsmall hnone (hsome _ hanswer)) (hfresh _ hanswer)
      (o.last_mem hwalk) hlink
  | extendSplit hnone hanswer hwalk hlink hsplit =>
    have hfresh' := hfresh _ hanswer
    have hlast := o.last_mem hwalk
    exact (hsnug.linked o.toLayout (hsmall hnone (hsome _ hanswer)) hfresh' hlast hlink).split
      (hlink.layout o.toLayout hfresh' hlast) hsplit

/-- One call without `mmap`. -/
theorem step (hsnug : Snug h) (o : Ordered h) {c : Call} (hcond : c.WithoutMmap cpus h)
    (hstep : PinnedStep cpus cpu h c q h') : Ordered h' ∧ Snug h' := by
  obtain ⟨hpinned, hallowed, hcall⟩ := hstep
  cases c with
  | malloc s env =>
    obtain ⟨-, -, hheads, hfresh⟩ := hallowed
    obtain ⟨-, hextend, hlast, -⟩ := hpinned
    have o₁ := o.init hheads
    have hsnug₁ := hsnug.init o.toLayout hheads
    have houtcome := o₁.walks.mymalloc_cases hfresh (hsnug₁.splitsInside o₁ hcond) hcall
    refine ⟨o₁.malloc (fun _ _ hempty => ?_) hfresh houtcome,
      hsnug₁.malloc o₁ hcond hfresh houtcome⟩
    rw [hextend, ← hlast]
    exact hempty
  | free c ptr =>
    have o' := o.step (c := .free c ptr) trivial trivial ⟨hallowed, hcall⟩
    obtain ⟨h₁, hfree, hcall⟩ := bind_eq_ok.mp hcall
    rw [pure_eq_ok, Except.ok.injEq, Prod.mk.injEq] at hcall
    obtain rfl := hcall.1
    refine ⟨o', ?_⟩
    rcases o.toLayout.myfree_cases hallowed.2 hfree with ⟨hmem, -, hcreated⟩ | ⟨b, hb, -, rfl⟩
    · exact hsnug.of_fields (by rw [hmem]) hcreated fun b _ => by rw [hmem]
    · exact hsnug.set_field o.toLayout hb (by decide) 1

end Snug

/-- **Every block lies inside its region, under the condition.**  In every run of a
thread on one processor in which no call is answered by `mmap`, every block on the
list lies with its header and its payload inside a region of the operating system. -/
theorem blocks_inside_of_run (cpus cpu : ℕ) (h₀ h : Heap Memory) (hinit : Initial h₀)
    (tr : List (Call × ℕ))
    (hrun : Run (Guarded (fun h c => c.WithoutMmap cpus h) (PinnedStep cpus cpu)) h₀ tr h) :
    BlocksInside h cpu := by
  have hsnug₀ : Snug h₀ := fun b hb => by
    rw [hinit.created] at hb
    exact absurd hb List.not_mem_nil
  obtain ⟨o, hsnug⟩ : Ordered h ∧ Snug h :=
    hrun.invariant (P := fun h => Ordered h ∧ Snug h)
      (fun _ _ _ _ hP hs => hP.2.step hP.1 hs.1 hs.2) ⟨ordered_of_initial hinit, hsnug₀⟩
  intro b hlist
  have hb := o.mem_of_onList hlist
  obtain ⟨r, hr, hin, -⟩ := o.home b hb
  refine ⟨r, hr, hin.1, ?_⟩
  rw [Extent.stop, ← Nat.add_assoc]
  exact hsnug b hb r hr hin

/-! ## A small request, and a page -/

/-- A block of 100 bytes that is freed and split for a request of 10 bytes. -/
def smallTrace : List (Call × ℕ) :=
  [(.malloc 100 (pinned 0 (some 4096) (some 8192)), 8216), (.free 0 8216, 0),
   (.malloc 10 (pinned 0 none none), 8216)]

theorem run_smallTrace : ∃ h,
    Run (Guarded (fun h c => c.WithoutMmap 1 h) (PinnedStep 1 0)) emptyHeap smallTrace h ∧
      h.created = [8192, 8226] ∧ OnList h 0 8226 := by
  refine ⟨_, Run.cons ⟨fun _ _ => by decide, ⟨rfl, rfl, rfl, rfl⟩, ?_, rfl⟩
    (Run.cons ⟨trivial, rfl, ?_, rfl⟩
    (Run.cons ⟨fun _ _ => by decide, ⟨rfl, rfl, rfl, rfl⟩, ?_, rfl⟩ (Run.nil _))), rfl, ?_⟩
  · refine ⟨by decide, by decide, fun x _ hx => ?_, fun a ha => ?_⟩
    · rw [← Option.some.inj hx]
      decide
    · rw [← Option.some.inj ha]
      decide
  · exact ⟨by decide, Or.inr ⟨8192, by decide, rfl⟩⟩
  · exact ⟨by decide, by decide, fun x _ hx => (nomatch hx), fun a ha => nomatch ha⟩
  · exact ⟨8192, rfl, Reaches.there (by decide) (Reaches.here (by decide))⟩

/-- Both halves lie inside the region. -/
theorem blocks_inside_small : ∃ h : Heap Memory, BlocksInside h 0 ∧ OnList h 0 8226 := by
  obtain ⟨h, hrun, -, hlist⟩ := run_smallTrace
  exact ⟨h, blocks_inside_of_run 1 0 emptyHeap h initial_emptyHeap smallTrace hrun, hlist⟩

/-- **A payload that ends behind its region.**  A request of 4096 bytes gets one page,
and the 4096 bytes behind the header end 24 bytes after it. -/
theorem not_blocks_inside : ∃ h, Initial emptyHeap ∧
    Run (PinnedStep 1 0) emptyHeap [(.malloc 4096 (pinned 0 (some 4096) (some 8192)), 8216)] h ∧
      ¬ BlocksInside h 0 := by
  refine ⟨_, initial_emptyHeap, Run.cons ⟨⟨rfl, rfl, rfl, rfl⟩, ?_, rfl⟩ (Run.nil _), ?_⟩
  · refine ⟨by decide, by decide, fun x _ hx => ?_, fun a ha => ?_⟩
    · rw [← Option.some.inj hx]
      decide
    · rw [← Option.some.inj ha]
      decide
  · intro hinside
    have hblock := hinside 8192 ⟨8192, rfl, Reaches.here (by decide)⟩
    exact absurd hblock (by decide)

end AdvancedMemory
end SystemsProjects

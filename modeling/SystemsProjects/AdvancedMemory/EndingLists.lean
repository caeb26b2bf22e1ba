import SystemsProjects.AdvancedMemory.LivePointers
import SystemsProjects.AdvancedMemory.ThreadSafety

/-!
# Lists that end

A thread that moves between processors may lose blocks, and a list may have blocks that
were made on other processors.  But no list becomes a circle: a split links a block
in between two others, and a new block goes behind a last one.  So the links lead from
every block to NULL (`Ending`), and each call keeps it so.

That is what a call needs in order to return.  `Ending.mymalloc_returns` has two more
conditions, that the array of list heads is there and that a header that is cut off
lies in its region.
-/

namespace SystemsProjects
namespace AdvancedMemory

open Lib Allocator BlockStore

variable {M : Type} [BlockStore M] {h h' : Heap M} {cpu cpus s a b q : ℕ} {env : Environment}

/-- The lists do not leave the blocks, and they end. -/
structure Ending (h : Heap M) : Prop extends Threads.Sound h where
  ends : ∀ b ∈ h.created, ∃ l, Visits 0 (get h.mem .next) b l

namespace Ending

theorem chain_of_mem (o : Ending h) (hb : b ∈ h.created) :
    ∃ l, Visits 0 (get h.mem .next) b l ∧ ∀ x ∈ l, x ∈ h.created := by
  obtain ⟨l, hl⟩ := o.ends b hb
  exact ⟨l, hl, hl.forall_mem o.next (Or.inr hb)⟩

/-- The list of a processor. -/
theorem blockChain (o : Ending h) (cpu : ℕ) :
    ∃ bs, BlockChain h.mem (h.listHead cpu) bs ∧ ∀ b ∈ bs, b ∈ h.created := by
  rcases o.heads cpu with hnull | hmem
  · refine ⟨[], ⟨hnull, fun b hb => ?_, fun b hb => ?_⟩, fun b hb => ?_⟩
    · exact absurd hb List.not_mem_nil
    · exact absurd hb List.not_mem_nil
    · exact absurd hb List.not_mem_nil
  · obtain ⟨bs, hbs, hcreated⟩ := o.chain_of_mem hmem
    refine ⟨bs, ⟨hbs, fun b hb => o.header (hcreated b hb), fun b hb => ?_⟩, hcreated⟩
    have hbound := o.header_bound (hcreated b hb)
    exact Nat.lt_of_le_of_lt ((Nat.le_add_right b blockSize).trans hbound) (by decide)

/-! ## The sections keep the lists -/

theorem of_eq (o : Ending h) (hmem : h'.mem = h.mem) (hheads : h'.blockHead = h.blockHead)
    (hcreated : h'.created = h.created) : Ending h' where
  toSound := o.toSound.of_eq hmem hheads hcreated
  ends := by
    rw [hcreated, hmem]
    exact o.ends

theorem setFree (o : Ending h) (hb : b ∈ h.created) (v : ℕ) :
    Ending { h with mem := set h.mem .free b v } where
  toSound := o.toSound.setFree hb v
  ends c hc := by
    obtain ⟨l, hl, hcreated⟩ := o.chain_of_mem hc
    exact ⟨l, hl.congr fun x hx => o.toLayout.get_set hb (hcreated x hx) v (Or.inr (by decide))⟩

/-- **A split** links the second half in behind the first one. -/
theorem split (o : Ending h) (p : CanSplit h b s) : Ending (splitHeap h b s) where
  toSound := o.toSound.split p
  ends c hc := by
    have happart := p.additional_apart o.toLayout p.mem
    have hne : additionalBlock b s ≠ 0 := by
      rw [p.additional_eq o.toLayout]
      simp only [blockSize]
      omega
    have hold : ∀ c ∈ h.created, ∃ l, Visits 0 (get (splitMem h.mem b s) .next) c l := by
      intro c hc
      obtain ⟨l, hl, hcreated⟩ := o.chain_of_mem hc
      have hother : ∀ x ∈ l, x ≠ b → get (splitMem h.mem b s) .next x = get h.mem .next x :=
        fun x hx hxb => p.get_other o.toLayout (hcreated x hx) hxb .next
      by_cases hbl : b ∈ l
      · obtain ⟨l', hl', -⟩ := hl.insert_of_mem hbl hne next_splitMem_old
          (next_splitMem_new happart (o.next_lt p.mem)) hother
        exact ⟨l', hl'⟩
      · exact ⟨l, hl.congr fun x hx => hother x hx (ne_of_mem_of_not_mem hx hbl)⟩
    rcases List.mem_append.mp hc with hc | hc
    · exact hold c hc
    · -- the list of the second half is what follows the first half
      obtain ⟨l, hl⟩ := hold b p.mem
      rw [List.mem_singleton.mp hc]
      cases l with
      | nil => exact absurd hl (o.ne_zero p.mem)
      | cons x l =>
        obtain ⟨hbx, -, hrest⟩ := hl
        rw [← hbx, next_splitMem_old] at hrest
        exact ⟨l, hrest⟩

/-- What `getLastBlock` returns has no successor. -/
theorem last_cases (o : Ending h) {last : ℕ} (hwalk : getLastBlock h cpu = .ok last) :
    last = 0 ∨ (last ∈ h.created ∧ get h.mem .next last = 0) := by
  obtain ⟨bs, c, hcreated⟩ := o.blockChain cpu
  rcases getLastBlock_of_chain c hwalk with ⟨-, hnull, -⟩ | ⟨front, hsplit⟩
  · exact Or.inl hnull
  · have hvisits := c.visits
    rw [hsplit] at hvisits
    refine Or.inr ⟨hcreated last ?_, hvisits.next_last⟩
    rw [hsplit]
    exact List.mem_append_right _ List.mem_cons_self

/-- **A new block** goes behind a last block or becomes a list. -/
theorem linked (o : Ending h) {lastCpu last : ℕ} (hfresh : Fresh h.mem (request s a).1)
    (hwalk : getLastBlock h lastCpu = .ok last) (k : Linked h cpu last s a h') : Ending h' where
  toSound := o.toSound.linked hfresh (o.last_mem hwalk) k
  ends c hc := by
    have hin := (request_spec hfresh.stop).1
    have hne : a ≠ 0 := Nat.ne_of_gt (Nat.lt_of_lt_of_le hfresh.pos hin.1)
    have hend : get (extendedMem h.mem s a) .next a = 0 := next_withHeader (by decide)
    have hold : ∀ x ∈ h.created, get (extendedMem h.mem s a) .next x = get h.mem .next x :=
      fun x hx => o.toLayout.get_extended hfresh hx .next
    rw [k.mem_created] at hc
    cases k with
    | head hlast hheads hcpu =>
      rcases hc with hc | rfl
      · obtain ⟨l, hl, hcreated⟩ := o.chain_of_mem hc
        exact ⟨l, hl.congr fun x hx => hold x (hcreated x hx)⟩
      · exact ⟨[c], rfl, hne, hend⟩
    | behind hnull =>
      obtain ⟨hmem, hnext⟩ := (o.last_cases hwalk).resolve_left hnull
      have hlt : a < 256 ^ Field.next.width :=
        Nat.lt_of_le_of_lt ((Nat.le_add_right a blockSize).trans (hin.2.trans hfresh.stop))
          (by decide)
      have hlink : get (set (extendedMem h.mem s a) .next last a) .next a = 0 := by
        rw [get_set_of_apart _ _ _ _ (apart_symm (o.toLayout.new_apart hfresh hmem)), hend]
      rcases hc with hc | rfl
      · obtain ⟨l, hl, hcreated⟩ := o.chain_of_mem hc
        have hother : ∀ x ∈ l, x ≠ last →
            get (set (extendedMem h.mem s a) .next last a) .next x = get h.mem .next x := by
          intro x hx hxlast
          rw [get_set_of_apart _ _ _ _ (o.headers_apart hmem (hcreated x hx) hxlast.symm),
            hold x (hcreated x hx)]
        by_cases hlast : last ∈ l
        · obtain ⟨l', hl', -⟩ := hl.insert_of_mem hlast hne (get_set_of_lt _ last hlt)
            (hlink.trans hnext.symm) hother
          exact ⟨l', hl'⟩
        · exact ⟨l, hl.congr fun x hx => hother x hx (ne_of_mem_of_not_mem hx hlast)⟩
      · exact ⟨[c], rfl, hne, hlink⟩

/-- The first call makes empty lists. -/
theorem init (o : Ending h) {answer : Option ℕ}
    (hfresh : ∀ x, h.blockHead = .null → answer = some x → Fresh h.mem ⟨x, 8 * cpus⟩) :
    Ending (initHeap h cpus answer) := by
  rw [initHeap]
  by_cases hheads : h.blockHead = .null
  · rw [if_pos hheads]
    suffices hset : Ending (allocateHeads h cpus answer) by
      obtain ⟨hmem, hheads', hcreated⟩ := initLocks_fields (allocateHeads h cpus answer) cpus
      exact hset.of_eq hmem hheads' hcreated
    refine ⟨o.toSound.allocateHeads fun x hx => hfresh x hheads hx, fun b hb => ?_⟩
    cases answer with
    | none => exact o.ends b hb
    | some x =>
      obtain ⟨l, hl⟩ := o.ends b hb
      exact ⟨l, hl.congr fun y _ => get_map _ _ _ _⟩
  · rw [if_neg hheads]
    exact o

/-- The lists are what a call needs. -/
theorem walks (o : Ending h) : Walks h where
  toLayout := o.toLayout
  listed {cpu b} hb := by
    obtain ⟨bs, c, hcreated⟩ := o.blockChain cpu
    exact hcreated b (c.visits.reaches_iff.mp (onList_iff.mp hb))
  found {cpu s b} hfound := by
    obtain ⟨bs, c, -⟩ := o.blockChain cpu
    exact hfound.cases_of_chain c
  last hwalk := o.last_mem hwalk

/-- **One call of `mymalloc`.** -/
theorem malloc (o : Ending h) (hfresh : ∀ a, env.answer = some a → Fresh h.mem (request s a).1)
    (houtcome : MallocOutcome h env s h' q) : Ending h' := by
  cases houtcome with
  | reuse hlist => exact o.setFree (o.walks.listed hlist) 0
  | reuseSplit hlist _ hsplit => exact (o.setFree (o.walks.listed hlist) 0).split hsplit
  | refused => exact o
  | extend _ hanswer hwalk hlink => exact o.linked (hfresh _ hanswer) hwalk hlink
  | extendSplit _ hanswer hwalk hlink hsplit =>
    exact (o.linked (hfresh _ hanswer) hwalk hlink).split hsplit

end Ending

/-! ## Calls return -/

/-- The array of list heads is there, with an entry for each processor, and no mutex is
taken. -/
structure Ready (cpus : ℕ) (h : Heap M) : Prop where
  heads : ∃ lists, h.blockHead = .array lists ∧ lists.length = cpus
  unlocked : ∀ cpu, h.locks cpu = false

namespace Ready

omit [BlockStore M] in
theorem head (r : Ready cpus h) (hcpu : cpu < cpus) : h.head cpu = .ok (h.listHead cpu) := by
  obtain ⟨lists, hlists, hlength⟩ := r.heads
  have hlt : cpu < lists.length := by
    rw [hlength]
    exact hcpu
  obtain ⟨list, hlist⟩ : ∃ list, h.head cpu = .ok list := by
    rw [Heap.head, hlists]
    dsimp only
    rw [List.getElem?_eq_getElem hlt]
    exact ⟨_, rfl⟩
  rw [hlist, listHead_of_head hlist]

theorem linkBlock (r : Ready cpus h) (hcpu : cpu < cpus) {last : ℕ}
    (hlast : last = 0 ∨ Header h.mem last) (a : ℕ) : ∃ h', linkBlock h cpu last a = .ok h' := by
  rw [AdvancedMemory.linkBlock]
  by_cases hnull : last = 0
  · obtain ⟨lists, hlists, hlength⟩ := r.heads
    rw [if_pos hnull, Heap.setHead, hlists]
    dsimp only
    rw [if_pos (by rw [hlength]; exact hcpu)]
    exact ⟨_, rfl⟩
  · rw [if_neg hnull, store_eq _ _ (hlast.resolve_left hnull)]
    exact ⟨_, rfl⟩

end Ready

namespace Ending

theorem find_returns (o : Ending h) (r : Ready cpus h) (hcpu : cpu < cpus) (s : ℕ) :
    ∃ b, findOptimalFreeBlock h cpu s = .ok (h, b) := by
  obtain ⟨bs, c, -⟩ := o.blockChain cpu
  rw [findOptimalFreeBlock_eq, if_neg (by rw [r.unlocked cpu]; decide), r.head hcpu, ok_bind,
    c.searchList_eq s, ok_bind]
  exact ⟨_, rfl⟩

theorem getLastBlock_returns (o : Ending h) (r : Ready cpus h) (hcpu : cpu < cpus) :
    ∃ last, getLastBlock h cpu = .ok last := by
  obtain ⟨bs, c, -⟩ := o.blockChain cpu
  rw [getLastBlock, r.head hcpu, ok_bind]
  rcases List.eq_nil_or_concat bs with rfl | ⟨front, x, rfl⟩
  · rw [show h.listHead cpu = 0 from c.visits, lastOfList_null]
    exact ⟨0, rfl⟩
  · rw [List.concat_eq_append] at c
    exact ⟨x, c.lastOfList_eq⟩

/-- `extendMemory` up to the split. -/
theorem extendSection_returns (o : Ending h) (r : Ready cpus h) (hextend : env.extend < cpus)
    (hlast : env.last < cpus)
    (hfresh : ∀ a, env.answer = some a → Fresh h.mem (request s a).1) :
    ∃ h' new, extendSection h env.extend env.last s env.answer = .ok (h', new) := by
  obtain ⟨last, hwalk⟩ := o.getLastBlock_returns r hlast
  rw [extendSection_eq fun a ha => header_new (hfresh a ha),
    if_neg (by rw [r.unlocked]; decide), hwalk, ok_bind]
  cases hanswer : env.answer with
  | none => exact ⟨_, _, rfl⟩
  | some a =>
    have ha := hfresh a hanswer
    have hheader : ∀ b, Header h.mem b → Header (extendedMem h.mem s a) b := fun b hb =>
      header_withHeader (header_map _ hb)
    have hnew : Header (extendedMem h.mem s a) a := header_withHeader (header_new ha)
    have hextended : last = 0 ∨ Header (extendedHeap h s a).mem last :=
      (o.last_mem hwalk).imp_right fun hmem => hheader last (o.header hmem)
    have r' : Ready cpus (extendedHeap h s a) := ⟨r.heads, r.unlocked⟩
    obtain ⟨h', hlink⟩ := r'.linkBlock hextend hextended a
    have hnew' : Header h'.mem a := by
      rcases linkBlock_cases hextended hlink with ⟨-, lists, -, -, rfl⟩ | ⟨-, rfl⟩
      · exact hnew
      · exact header_set _ _ _ hnew
    dsimp only
    rw [hlink, ok_bind, load_eq _ hnew', ok_bind]
    exact ⟨_, _, rfl⟩

theorem extendMemory_returns (o : Ending h) (r : Ready cpus h) (hextend : env.extend < cpus)
    (hlast : env.last < cpus) (hnone : NoneFits h env s)
    (hfresh : ∀ a, env.answer = some a → Fresh h.mem (request s a).1)
    (hroom : SplitsInside h env s) : ∃ h' q, extendMemory h env s = .ok (h', q) := by
  obtain ⟨h₁, new, hcall⟩ := o.extendSection_returns r hextend hlast hfresh
  rw [extendMemory, hcall, ok_bind]
  rcases o.toLayout.extendSection_cases hfresh (fun _ hwalk => o.last_mem hwalk) hcall with
    ⟨-, -, rfl⟩ | ⟨a, last, hanswer, hwalk, k, rfl⟩
  · exact ⟨_, _, rfl⟩
  · have ha := hfresh a hanswer
    by_cases hsplittable : Splittable (request s a).2 s
    · have p := k.canSplit o.toLayout ha (o.last_mem hwalk) hsplittable
        (hroom.2 a hanswer hnone hsplittable)
      have hlocks : ∀ x, h₁.locks x = false := by
        rw [k.locks_eq]
        exact r.unlocked
      rw [decide_eq_true hsplittable]
      dsimp only
      rw [if_pos rfl, p.splitBlock_ok (k.layout o.toLayout ha (o.last_mem hwalk)),
        if_neg (by rw [hlocks]; decide), ok_bind, lockMutex,
        if_neg (by rw [splitHeap, hlocks]; decide)]
      exact ⟨_, _, rfl⟩
    · rw [decide_eq_false hsplittable]
      exact ⟨_, _, rfl⟩

/-- **`mymalloc` returns.** -/
theorem mymalloc_returns (o : Ending (initHeap h cpus env.heads))
    (r : Ready cpus (initHeap h cpus env.heads))
    (hcpus : env.find < cpus ∧ env.extend < cpus ∧ env.last < cpus)
    (hfresh : ∀ a, env.answer = some a →
      Fresh (initHeap h cpus env.heads).mem (request s a).1)
    (hroom : SplitsInside (initHeap h cpus env.heads) env s) :
    ∃ h' q, mymalloc h cpus env s = .ok (h', q) := by
  obtain ⟨hfindcpu, hextend, hlast⟩ := hcpus
  obtain ⟨b, hfind⟩ := o.find_returns r hfindcpu s
  have hfound := (findOptimalFreeBlock_cases hfind).2
  rcases o.walks.found hfound with ⟨rfl, hnone⟩ | ⟨hne, hlist, hfits⟩
  · rw [mymalloc_of_none hfind]
    exact o.extendMemory_returns r hextend hlast hnone hfresh hroom
  · have hmem := o.walks.listed hlist
    rw [mymalloc_of_found hfind hne (o.header hmem)]
    by_cases hsplittable : Splittable (get (initHeap h cpus env.heads).mem .size b) s
    · have p := o.toLayout.canSplit_claim hmem hfits hsplittable
        fun x hx hbx => hroom.1 b hfound hne x hx hbx hsplittable
      have l' : Layout (claim (initHeap h cpus env.heads) b) :=
        o.toLayout.set_field hmem (by decide) 0
      rw [if_pos hsplittable, p.splitBlock_ok l', if_neg (by rw [claim, r.unlocked]; decide)]
      exact ⟨_, _, rfl⟩
    · rw [if_neg hsplittable]
      exact ⟨_, _, rfl⟩

end Ending

end AdvancedMemory
end SystemsProjects

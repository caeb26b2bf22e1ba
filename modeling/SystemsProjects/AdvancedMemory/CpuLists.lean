import SystemsProjects.AdvancedMemory.Layout
import SystemsProjects.Lib.ChainFamily

/-!
# The lists of the processors

A thread that runs alone calls `mymalloc` and `myfree`.  Within a call each function asks
`sched_getcpu` again, so the search, the last block, the link and the split may concern
the lists of four different processors.

`Ordered` is what should hold between two calls: the lists share no block, and each
block that was ever made is on one of them.  One branch breaks it.  If the list
that `getLastBlock` looks at is empty and the list of `extendMemory` is not, the
new block replaces all blocks of that list (`not_each_once`).  In all other cases the
order is kept (`each_once_of_run`), provided that a block that is split has room for
another header in its region.
-/

namespace SystemsProjects
namespace AdvancedMemory

open Lib Allocator BlockStore

variable {M : Type} [BlockStore M] {h h' : Heap M} {cpu cpus b s a : ℕ}

/-! ## Lists -/

/-- The block is on the list of the processor. -/
def OnList (h : Heap M) (cpu b : ℕ) : Prop :=
  ∃ list, h.head cpu = .ok list ∧ Reaches 0 (get h.mem .next) list b

/-- The search on the list of the processor ends with `b`. -/
def Found (h : Heap M) (cpu s b : ℕ) : Prop :=
  ∃ list, h.head cpu = .ok list ∧ searchList h.mem s list = .ok b

/-- The search leaves the heap as it was. -/
theorem findOptimalFreeBlock_cases {b cpu : ℕ}
    (hcall : findOptimalFreeBlock h cpu s = .ok (h', b)) : h' = h ∧ Found h cpu s b := by
  rw [findOptimalFreeBlock_eq] at hcall
  by_cases hlock : h.locks cpu = true
  · rw [if_pos hlock] at hcall
    cases hcall
  · rw [if_neg hlock] at hcall
    obtain ⟨list, hhead, hcall⟩ := bind_eq_ok.mp hcall
    obtain ⟨optimal, hsearch, hcall⟩ := bind_eq_ok.mp hcall
    rw [pure_eq_ok, Except.ok.injEq, Prod.mk.injEq] at hcall
    rw [← hcall.2]
    exact ⟨hcall.1.symm, list, hhead, hsearch⟩

/-- A search that returns did not wait for the mutex. -/
theorem locks_of_find {r : Heap M × ℕ} (hcall : findOptimalFreeBlock h cpu s = .ok r) :
    h.locks cpu = false := by
  rw [findOptimalFreeBlock_eq] at hcall
  by_cases hlock : h.locks cpu = true
  · rw [if_pos hlock] at hcall
    cases hcall
  · simpa using hlock

/-- The first block of a list, NULL where there is no list. -/
def Heap.listHead (h : Heap M) (cpu : ℕ) : ℕ :=
  match h.blockHead with
  | .array lists => lists.getD cpu 0
  | .null => 0
  | .failed => 0

omit [BlockStore M] in
theorem listHead_of_head {list : ℕ} (hhead : h.head cpu = .ok list) :
    h.listHead cpu = list := by
  rw [Heap.head] at hhead
  rw [Heap.listHead]
  cases hheads : h.blockHead with
  | null =>
    rw [hheads] at hhead
    cases hhead
  | failed =>
    rw [hheads] at hhead
    cases hhead
  | array lists =>
    rw [hheads] at hhead
    dsimp only at hhead ⊢
    rw [List.getD_eq_getElem?_getD]
    cases hlist : lists[cpu]? with
    | none =>
      rw [hlist] at hhead
      cases hhead
    | some list' =>
      rw [hlist] at hhead
      exact Except.ok.inj hhead

omit [BlockStore M] in
theorem head_of_listHead (hne : h.listHead cpu ≠ 0) : h.head cpu = .ok (h.listHead cpu) := by
  rw [Heap.listHead] at hne
  rw [Heap.head, Heap.listHead]
  cases hheads : h.blockHead with
  | null =>
    rw [hheads] at hne
    exact absurd rfl hne
  | failed =>
    rw [hheads] at hne
    exact absurd rfl hne
  | array lists =>
    rw [hheads] at hne
    dsimp only at hne ⊢
    rw [List.getD_eq_getElem?_getD] at hne ⊢
    cases hlist : lists[cpu]? with
    | none =>
      rw [hlist] at hne
      exact absurd rfl hne
    | some list => rfl

omit [BlockStore M] in
/-- `block_head[cpu] = a`. -/
theorem listHead_set {lists : List ℕ} (hheads : h.blockHead = .array lists)
    (hcpu : cpu < lists.length) (hset : h'.blockHead = .array (lists.set cpu a)) :
    h'.listHead = Function.update h.listHead cpu a := by
  funext x
  rw [Heap.listHead, hset]
  dsimp only
  rw [List.getD_eq_getElem?_getD, List.getElem?_set]
  by_cases hx : x = cpu
  · rw [hx, if_pos rfl, if_pos hcpu, Function.update_self]
    rfl
  · rw [if_neg (Ne.symm hx), Function.update_of_ne hx, Heap.listHead, hheads,
      ← List.getD_eq_getElem?_getD]

/-- New list heads are NULL. -/
theorem listHead_allocateHeads (answer : Option ℕ) (x : ℕ) :
    (allocateHeads h cpus answer).listHead x = 0 := by
  cases answer with
  | none => rfl
  | some y =>
    rw [allocateHeads, Heap.listHead]
    dsimp only
    rw [List.getD_eq_getElem?_getD, List.getElem?_replicate]
    split <;> rfl

theorem onList_iff : OnList h cpu b ↔ Reaches 0 (get h.mem .next) (h.listHead cpu) b := by
  constructor
  · rintro ⟨list, hhead, hreaches⟩
    rw [listHead_of_head hhead]
    exact hreaches
  · intro hreaches
    have hne : h.listHead cpu ≠ 0 := by
      cases hreaches with
      | here hne => exact hne
      | there hne _ => exact hne
    exact ⟨h.listHead cpu, head_of_listHead hne, hreaches⟩

/-- The search on a list that ends. -/
theorem Found.eq_foldl {bs : List ℕ} (c : BlockChain h.mem (h.listHead cpu) bs)
    (hfound : Found h cpu s b) : b = bs.foldl (pick h.mem s) 0 := by
  obtain ⟨list, hhead, hsearch⟩ := hfound
  rw [← listHead_of_head hhead, c.searchList_eq s] at hsearch
  exact (Except.ok.inj hsearch).symm

/-- It finds a block that fits, or nothing if there is none. -/
theorem Found.cases_of_chain {bs : List ℕ} (c : BlockChain h.mem (h.listHead cpu) bs)
    (hfound : Found h cpu s b) :
    (b = 0 ∧ ∀ x, OnList h cpu x → ¬ Fits h.mem s x) ∨
      (b ≠ 0 ∧ OnList h cpu b ∧ Fits h.mem s b) := by
  have hmem : ∀ x, OnList h cpu x ↔ x ∈ bs := fun x =>
    onList_iff.trans c.visits.reaches_iff
  have hne : ∀ x ∈ bs, x ≠ 0 := fun x hx => c.visits.ne_null hx
  have hfold := (hfound.eq_foldl c).symm
  rcases foldl_pick_spec h.mem s bs hne with ⟨hnull, hnone⟩ | hbest
  · exact Or.inl ⟨hfold.symm.trans hnull, fun x hx => hnone x ((hmem x).mp hx)⟩
  · rw [hfold] at hbest
    exact Or.inr ⟨hne b hbest.mem, (hmem b).mpr hbest.mem, hbest.fits⟩

/-- The last block of a list that ends. -/
theorem getLastBlock_of_chain {bs : List ℕ} {last : ℕ}
    (c : BlockChain h.mem (h.listHead cpu) bs) (hlast : getLastBlock h cpu = .ok last) :
    (bs = [] ∧ last = 0 ∧ h.head cpu = .ok 0) ∨ ∃ front, bs = front ++ [last] := by
  rw [getLastBlock] at hlast
  obtain ⟨list, hhead, hwalk⟩ := bind_eq_ok.mp hlast
  rw [listHead_of_head hhead] at c
  rcases List.eq_nil_or_concat bs with hnil | ⟨front, x, hsplit⟩
  · have hnull : list = 0 := c.visits.eq_null_iff.mpr hnil
    rw [hnull, lastOfList_null] at hwalk
    rw [hnull] at hhead
    exact Or.inl ⟨hnil, (Except.ok.inj hwalk).symm, hhead⟩
  · rw [List.concat_eq_append] at hsplit
    rw [hsplit] at c
    rw [c.lastOfList_eq] at hwalk
    rw [← Except.ok.inj hwalk]
    exact Or.inr ⟨front, hsplit⟩

/-! ## The order of the heap -/

/-- The blocks that were made are on the lists, each on one of them. -/
structure Listed (h : Heap M) (chain : ℕ → List ℕ) : Prop where
  family : ChainFamily 0 (get h.mem .next) h.listHead chain
  created : ∀ b, b ∈ h.created ↔ ∃ cpu, b ∈ chain cpu

/-- **The heap between two calls.** -/
structure Ordered (h : Heap M) : Prop extends Layout h where
  lists : ∃ chain, Listed h chain

/-- Every block that was made is reached from one entry of `block_head`. -/
def EachOnce (h : Heap M) : Prop := ∀ b ∈ h.created, ∃! cpu, OnList h cpu b

namespace Ordered

theorem eachOnce (o : Ordered h) : EachOnce h := by
  intro b hb
  obtain ⟨chain, c⟩ := o.lists
  obtain ⟨cpu, hcpu⟩ := (c.created b).mp hb
  simp only [onList_iff]
  exact c.family.reaches_once hcpu

theorem mem_of_onList (o : Ordered h) (hb : OnList h cpu b) : b ∈ h.created := by
  obtain ⟨chain, c⟩ := o.lists
  exact (c.created b).mpr ⟨cpu, (c.family.visits cpu).reaches_iff.mp (onList_iff.mp hb)⟩

/-- The order does not depend on the mutexes. -/
theorem of_eq (o : Ordered h) (hmem : h'.mem = h.mem) (hheads : h'.blockHead = h.blockHead)
    (hcreated : h'.created = h.created) : Ordered h' := by
  obtain ⟨mem, heads, locks, created⟩ := h
  obtain ⟨mem', heads', locks', created'⟩ := h'
  obtain rfl : mem' = mem := hmem
  obtain rfl : heads' = heads := hheads
  obtain rfl : created' = created := hcreated
  exact ⟨o.toLayout.of_fields rfl rfl fun _ _ => rfl,
    o.lists.imp fun _ c => ⟨c.family, c.created⟩⟩

/-- Marking a block as taken or as free. -/
theorem setFree (o : Ordered h) (hb : b ∈ h.created) (v : ℕ) :
    Ordered { h with mem := set h.mem .free b v } := by
  obtain ⟨chain, c⟩ := o.lists
  refine ⟨o.toLayout.set_field hb (by decide) v, chain, c.family.congr fun cpu x hx => ?_,
    c.created⟩
  exact o.toLayout.get_set hb ((c.created x).mpr ⟨cpu, hx⟩) v (Or.inr (by decide))

theorem blockChain (o : Ordered h) {chain : ℕ → List ℕ} (c : Listed h chain) (cpu : ℕ) :
    BlockChain h.mem (h.listHead cpu) (chain cpu) where
  visits := c.family.visits cpu
  header b hb := o.header ((c.created b).mpr ⟨cpu, hb⟩)
  lt b hb := by
    have hbound := o.header_bound ((c.created b).mpr ⟨cpu, hb⟩)
    exact Nat.lt_of_le_of_lt ((Nat.le_add_right b blockSize).trans hbound) (by decide)

/-- **What the search finds**: a free block of the list that is large enough, or
nothing if there is none. -/
theorem found_cases (o : Ordered h) (hfound : Found h cpu s b) :
    (b = 0 ∧ ∀ x, OnList h cpu x → ¬ Fits h.mem s x) ∨
      (b ≠ 0 ∧ OnList h cpu b ∧ Fits h.mem s b) := by
  obtain ⟨chain, c⟩ := o.lists
  exact hfound.cases_of_chain (o.blockChain c cpu)

/-- What `getLastBlock` returns: NULL for an empty list, else a block without
successor. -/
theorem getLastBlock_cases (o : Ordered h) {last : ℕ} (hlast : getLastBlock h cpu = .ok last) :
    (last = 0 ∧ h.head cpu = .ok 0) ∨
      (last ≠ 0 ∧ last ∈ h.created ∧ get h.mem .next last = 0) := by
  obtain ⟨chain, c⟩ := o.lists
  have hchain := o.blockChain c cpu
  rcases getLastBlock_of_chain hchain hlast with ⟨-, hnull, hhead⟩ | ⟨front, hsplit⟩
  · exact Or.inl ⟨hnull, hhead⟩
  · have hmem : last ∈ chain cpu := by
      rw [hsplit]
      exact List.mem_append_right _ List.mem_cons_self
    have hcreated : last ∈ h.created := (c.created last).mpr ⟨cpu, hmem⟩
    rw [hsplit] at hchain
    exact Or.inr ⟨o.ne_zero hcreated, hcreated, hchain.visits.next_last⟩

/-! ## The sections keep the order -/

/-- A link leads to a block or to NULL. -/
theorem next_cases (o : Ordered h) (hb : b ∈ h.created) :
    get h.mem .next b = 0 ∨ get h.mem .next b ∈ h.created := by
  obtain ⟨chain, c⟩ := o.lists
  obtain ⟨cpu, hcpu⟩ := (c.created b).mp hb
  exact ((c.family.visits cpu).next_mem hcpu).imp_right fun h => (c.created _).mpr ⟨cpu, h⟩

theorem next_lt (o : Ordered h) (hb : b ∈ h.created) : get h.mem .next b < 2 ^ 64 := by
  rcases o.next_cases hb with hnull | hmem
  · rw [hnull]
    decide
  · exact Nat.lt_of_le_of_lt ((Nat.le_add_right _ blockSize).trans (o.header_bound hmem))
      (by decide)

/-- **A split** links the second half in behind the first one. -/
theorem split (o : Ordered h) (p : CanSplit h b s) : Ordered (splitHeap h b s) := by
  obtain ⟨chain, c⟩ := o.lists
  obtain ⟨cpu, hcpu⟩ := (c.created b).mp p.mem
  have hnew : additionalBlock b s ∉ h.created := p.additional_notMem o.toLayout
  have hne : additionalBlock b s ≠ 0 := by
    rw [p.additional_eq o.toLayout]
    simp only [blockSize]
    omega
  obtain ⟨chain', hfamily, hmem⟩ : ∃ chain',
      ChainFamily 0 (get (splitMem h.mem b s) .next) h.listHead chain' ∧
        ∀ x d, d ∈ chain' x ↔ d ∈ chain x ∨ (x = cpu ∧ d = additionalBlock b s) :=
    c.family.insert_after hcpu hne (fun x hx => hnew ((c.created _).mpr ⟨x, hx⟩))
      next_splitMem_old
      (next_splitMem_new (p.additional_apart o.toLayout p.mem) (o.next_lt p.mem))
      fun x d hd hdb => p.get_other o.toLayout ((c.created d).mpr ⟨x, hd⟩) hdb .next
  refine ⟨o.toLayout.split p, chain', hfamily, fun d => ?_⟩
  show d ∈ h.created ++ [additionalBlock b s] ↔ _
  simp only [hmem, List.mem_append, List.mem_singleton, c.created d]
  constructor
  · rintro (⟨x, hx⟩ | hd)
    · exact ⟨x, Or.inl hx⟩
    · exact ⟨cpu, Or.inr ⟨rfl, hd⟩⟩
  · rintro ⟨x, hx | ⟨-, hd⟩⟩
    · exact Or.inl ⟨x, hx⟩
    · exact Or.inr hd

/-- The last block of a list is a block. -/
theorem last_mem (o : Ordered h) {last : ℕ} (hwalk : getLastBlock h cpu = .ok last) :
    last = 0 ∨ last ∈ h.created :=
  (o.getLastBlock_cases hwalk).imp And.left fun hlast => hlast.2.1

/-- **A new block** goes behind the last block, or onto an empty list.  This is where
the list of `extendMemory` must not be lost. -/
theorem linked (o : Ordered h) {lastCpu last : ℕ} (hfresh : Fresh h.mem (request s a).1)
    (hwalk : getLastBlock h lastCpu = .ok last)
    (hkeep : h.head lastCpu = .ok 0 → h.head cpu = .ok 0)
    (k : Linked h cpu last s a h') : Ordered h' := by
  obtain ⟨chain, c⟩ := o.lists
  have hin := (request_spec hfresh.stop).1
  have hne : a ≠ 0 := Nat.ne_of_gt (Nat.lt_of_lt_of_le hfresh.pos hin.1)
  have hnew : ∀ x, a ∉ chain x := fun x hx =>
    o.toLayout.new_notMem hfresh ((c.created a).mpr ⟨x, hx⟩)
  have hold : ∀ x, ∀ d ∈ chain x, get (extendedMem h.mem s a) .next d = get h.mem .next d :=
    fun x d hd => o.toLayout.get_extended hfresh ((c.created d).mpr ⟨x, hd⟩) .next
  have hend : get (extendedMem h.mem s a) .next a = 0 := next_withHeader (by decide)
  obtain ⟨x, chain', hfamily, hmem⟩ : ∃ x chain',
      ChainFamily 0 (get h'.mem .next) h'.listHead chain' ∧
        ∀ y d, d ∈ chain' y ↔ d ∈ chain y ∨ (y = x ∧ d = a) := by
    rcases o.getLastBlock_cases hwalk with ⟨hnull, hempty⟩ | ⟨hlast, hlastmem, hlastnext⟩
    · cases k with
      | behind hlast => exact absurd hnull hlast
      | @head lists _ hheads hcpu =>
        have hheadcpu : h.listHead cpu = 0 := listHead_of_head (hkeep hempty)
        refine ⟨cpu, ?_⟩
        rw [listHead_set hheads hcpu rfl]
        exact c.family.start hheadcpu hne hnew hend hold
    · cases k with
      | head hnull => exact absurd hnull hlast
      | behind _ =>
        obtain ⟨x, hx⟩ := (c.created last).mp hlastmem
        have hlt : a < 256 ^ Field.next.width :=
          Nat.lt_of_le_of_lt ((Nat.le_add_right a blockSize).trans (hin.2.trans hfresh.stop))
            (by decide)
        refine ⟨x, c.family.insert_after (b := last) hx hne hnew (get_set_of_lt _ last hlt) ?_
          fun y d hd hdlast => ?_⟩
        · rw [get_set_of_apart _ _ _ _ (apart_symm (o.toLayout.new_apart hfresh hlastmem)), hend,
            hlastnext]
        · have hdmem : d ∈ h.created := (c.created d).mpr ⟨y, hd⟩
          rw [get_set_of_apart _ _ _ _ (o.headers_apart hlastmem hdmem (Ne.symm hdlast)),
            hold y d hd]
  refine ⟨k.layout o.toLayout hfresh (o.last_mem hwalk), chain', hfamily, fun d => ?_⟩
  simp only [k.mem_created, hmem, c.created d]
  constructor
  · rintro (⟨y, hy⟩ | hd)
    · exact ⟨y, Or.inl hy⟩
    · exact ⟨x, Or.inr ⟨rfl, hd⟩⟩
  · rintro ⟨y, hy | ⟨-, hd⟩⟩
    · exact Or.inl ⟨y, hy⟩
    · exact Or.inr hd

/-- Before the first call there are no lists, after it they are empty. -/
theorem init (o : Ordered h) {answer : Option ℕ}
    (hfresh : ∀ x, h.blockHead = .null → answer = some x → Fresh h.mem ⟨x, 8 * cpus⟩) :
    Ordered (initHeap h cpus answer) := by
  rw [initHeap]
  by_cases hheads : h.blockHead = .null
  · rw [if_pos hheads]
    suffices hset : Ordered (allocateHeads h cpus answer) by
      obtain ⟨hmem, hheads', hcreated⟩ := initLocks_fields (allocateHeads h cpus answer) cpus
      exact hset.of_eq hmem hheads' hcreated
    have hnone : h.listHead = fun _ => 0 := by
      funext x
      rw [Heap.listHead, hheads]
    obtain ⟨chain, c⟩ := o.lists
    have hfamily := c.family
    rw [hnone] at hfamily
    cases answer with
    | none => exact ⟨o.toLayout.of_fields rfl rfl fun _ _ => rfl, chain, hfamily, c.created⟩
    | some x =>
      have hempty : (allocateHeads h cpus (some x)).listHead = fun _ => 0 :=
        funext (listHead_allocateHeads (some x))
      refine ⟨(o.toLayout.map (hfresh x hheads rfl)).of_fields rfl rfl fun _ _ => rfl, chain, ?_,
        c.created⟩
      rw [hempty]
      exact hfamily.congr fun y d _ => get_map _ _ _ _
  · rw [if_neg hheads]
    exact o

end Ordered

end AdvancedMemory
end SystemsProjects

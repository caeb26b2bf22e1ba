import SystemsProjects.AdvancedMemory.Threads

/-!
# When two threads are given the same block

`findOptimalFreeBlock` gives its mutex back before `mymalloc` marks the block that was
found.  Between the two, the block is still free on its list, and a second thread
that searches the list finds it again (`not_no_overlap`).

`no_overlap_of_run` says that nothing else goes wrong.  In every run, with any number
of threads on any processors, in which no search ends with a block that another
thread is about to claim, all live allocations are disjoint.  As in the other modules
a block that is split has to have room for another header.

Two threads may overwrite each other's lists, so nothing is known of a list but
that its links stay among the blocks (`Sound`).  The invariant `Safe` says whom each
block belongs to: a thread in a call, a live allocation, or nobody.
-/

namespace SystemsProjects
namespace AdvancedMemory
namespace Threads

open Lib Allocator BlockStore

/-! ## Lists that stay among the blocks -/

section Sound

variable {M : Type} [BlockStore M] {h h' : Heap M} {cpu cpus b s a : ℕ}

/-- The blocks are laid out, and the lists do not leave them. -/
structure Sound (h : Heap M) : Prop extends Layout h where
  next : ∀ b ∈ h.created, get h.mem .next b = 0 ∨ get h.mem .next b ∈ h.created
  heads : ∀ cpu, h.listHead cpu = 0 ∨ h.listHead cpu ∈ h.created

namespace Sound

theorem closed (o : Sound h) : Closed h.mem (· ∈ h.created) := ⟨fun _ => o.header, o.next⟩

theorem head_mem (o : Sound h) {list : ℕ} (hhead : h.head cpu = .ok list) :
    list = 0 ∨ list ∈ h.created := by
  rw [← listHead_of_head hhead]
  exact o.heads cpu

/-- A search that returns has found a block that fits, or nothing. -/
theorem found_cases (o : Sound h) (hfound : Found h cpu s b) :
    b = 0 ∨ (b ∈ h.created ∧ Fits h.mem s b) := by
  obtain ⟨list, hhead, hsearch⟩ := hfound
  exact o.closed.of_searchList (o.head_mem hhead) hsearch

theorem last_mem (o : Sound h) {last : ℕ} (hwalk : getLastBlock h cpu = .ok last) :
    last = 0 ∨ last ∈ h.created := by
  rw [getLastBlock] at hwalk
  obtain ⟨list, hhead, hwalk⟩ := bind_eq_ok.mp hwalk
  exact (o.closed.of_lastOfList (o.head_mem hhead) hwalk).imp And.right And.left

/-- The mutexes do not matter. -/
theorem of_eq (o : Sound h) (hmem : h'.mem = h.mem) (hheads : h'.blockHead = h.blockHead)
    (hcreated : h'.created = h.created) : Sound h' := by
  obtain ⟨mem, heads, locks, created⟩ := h
  obtain ⟨mem', heads', locks', created'⟩ := h'
  obtain rfl : mem' = mem := hmem
  obtain rfl : heads' = heads := hheads
  obtain rfl : created' = created := hcreated
  exact ⟨o.toLayout.of_fields rfl rfl fun _ _ => rfl, o.next, o.heads⟩

theorem setFree (o : Sound h) (hb : b ∈ h.created) (v : ℕ) :
    Sound { h with mem := set h.mem .free b v } := by
  refine ⟨o.toLayout.set_field hb (by decide) v, fun c hc => ?_, o.heads⟩
  show get (set h.mem .free b v) .next c = 0 ∨ get (set h.mem .free b v) .next c ∈ h.created
  rw [o.toLayout.get_set hb hc v (Or.inr (by decide))]
  exact o.next c hc

theorem next_lt (o : Sound h) (hb : b ∈ h.created) : get h.mem .next b < 2 ^ 64 := by
  rcases o.next b hb with hnull | hmem
  · rw [hnull]
    decide
  · exact Nat.lt_of_le_of_lt ((Nat.le_add_right _ blockSize).trans (o.header_bound hmem))
      (by decide)

theorem split (o : Sound h) (p : CanSplit h b s) : Sound (splitHeap h b s) := by
  have happart := p.additional_apart o.toLayout p.mem
  have hleft : ∀ {x}, x ∈ h.created → x ∈ h.created ++ [additionalBlock b s] :=
    fun hx => List.mem_append_left _ hx
  refine ⟨o.toLayout.split p, fun c hc => ?_, fun cpu => (o.heads cpu).imp_right hleft⟩
  show get (splitMem h.mem b s) .next c = 0 ∨
    get (splitMem h.mem b s) .next c ∈ h.created ++ [additionalBlock b s]
  rcases List.mem_append.mp hc with hc | hc
  · by_cases hcb : c = b
    · rw [hcb, next_splitMem_old]
      exact Or.inr (List.mem_append_right _ List.mem_cons_self)
    · rw [p.get_other o.toLayout hc hcb]
      exact (o.next c hc).imp_right hleft
  · rw [List.mem_singleton.mp hc, next_splitMem_new happart (o.next_lt p.mem)]
    exact (o.next b p.mem).imp_right hleft

theorem linked (o : Sound h) {last : ℕ} (hfresh : Fresh h.mem (request s a).1)
    (hlast : last = 0 ∨ last ∈ h.created) (k : Linked h cpu last s a h') : Sound h' := by
  have l' := k.layout o.toLayout hfresh hlast
  have hin := (request_spec hfresh.stop).1
  have hend : get (extendedMem h.mem s a) .next a = 0 := next_withHeader (by decide)
  have hold : ∀ c ∈ h.created, get (extendedMem h.mem s a) .next c = get h.mem .next c :=
    fun c hc => o.toLayout.get_extended hfresh hc .next
  have hextended : ∀ c ∈ h.created ++ [a], get (extendedMem h.mem s a) .next c = 0 ∨
      get (extendedMem h.mem s a) .next c ∈ h.created ++ [a] := by
    intro c hc
    rcases List.mem_append.mp hc with hc | hc
    · rw [hold c hc]
      exact (o.next c hc).imp_right fun hx => List.mem_append_left _ hx
    · rw [List.mem_singleton.mp hc]
      exact Or.inl hend
  have hheads : ∀ cpu, h.listHead cpu = 0 ∨ h.listHead cpu ∈ h.created ++ [a] := fun cpu =>
    (o.heads cpu).imp_right fun hx => List.mem_append_left _ hx
  have hnew : a ∈ h.created ++ [a] := List.mem_append_right _ List.mem_cons_self
  cases k with
  | @head lists _ hlists hcpu =>
    refine ⟨l', hextended, fun x => ?_⟩
    rw [listHead_set hlists hcpu rfl]
    by_cases hx : x = cpu
    · rw [hx, Function.update_self]
      exact Or.inr hnew
    · rw [Function.update_of_ne hx]
      exact hheads x
  | behind hne =>
    have hlastmem := hlast.resolve_left hne
    refine ⟨l', fun c hc => ?_, hheads⟩
    show get (set (extendedMem h.mem s a) .next last a) .next c = 0 ∨
      get (set (extendedMem h.mem s a) .next last a) .next c ∈ h.created ++ [a]
    by_cases hcl : c = last
    · have hlt : a < 256 ^ Field.next.width :=
        Nat.lt_of_le_of_lt ((Nat.le_add_right a blockSize).trans (hin.2.trans hfresh.stop))
          (by decide)
      rw [hcl, get_set_of_lt _ last hlt]
      exact Or.inr hnew
    · have hget := (o.toLayout.extend hfresh).get_set (f := .next) (g := .next) (c := c)
        (List.mem_append_left _ hlastmem) hc a (Or.inl hcl)
      rw [show get (set (extendedMem h.mem s a) .next last a) .next c = _ from hget]
      exact hextended c hc

/-- New list heads, all of them NULL. -/
theorem allocateHeads (o : Sound h) {answer : Option ℕ}
    (hfresh : ∀ x, answer = some x → Fresh h.mem ⟨x, 8 * cpus⟩) :
    Sound (allocateHeads h cpus answer) := by
  cases answer with
  | none => exact ⟨o.toLayout.of_fields rfl rfl fun _ _ => rfl, o.next, fun _ => Or.inl rfl⟩
  | some x =>
    refine ⟨(o.toLayout.map (hfresh x rfl)).of_fields rfl rfl fun _ _ => rfl, fun b hb => ?_,
      fun cpu => Or.inl (listHead_allocateHeads (some x) cpu)⟩
    show get (BlockStore.map h.mem _) .next b = 0 ∨
      get (BlockStore.map h.mem _) .next b ∈ h.created
    rw [get_map]
    exact o.next b hb

end Sound

end Sound

/-! ## Who uses a block -/

variable {ι : Type}

/-- The block that a thread works with, and the bytes that it counts on. -/
def PC.held : PC → Option (ℕ × ℕ)
  | .claim s b => some (b, s)
  | .sizeTest s b => some (b, s)
  | .split s b => some (b, s + blockSize + 4)
  | .extendSplit s b _ => some (b, s + blockSize + 4)
  | .relock s b _ => some (b, s)
  | .ret s (some b) => some (b, s)
  | _ => none

/-- The mark of that block: it is free until it has been claimed. -/
def PC.mark : PC → ℕ
  | .claim _ _ => 1
  | _ => 0

/-- **The condition on a search**: it does not end with a block that another thread has
found and not yet claimed. -/
def NoRace (w : World ι) (e : ι × Action) : Prop :=
  ∀ s cpu lastCpu answer, w.pc e.1 = .search s → e.2 = .go cpu lastCpu answer →
    ∀ b, Found w.heap cpu s b → ∀ j, j ≠ e.1 → ∀ s', w.pc j ≠ .claim s' b

/-- The block that a thread is about to split, with the size that is left to it. -/
def PC.toSplit : PC → Option (ℕ × ℕ)
  | .split s b => some (b, s)
  | .extendSplit s b _ => some (b, s)
  | _ => none

/-- **The condition on a split**: the region has room for the header that is cut off. -/
def RoomToSplit (w : World ι) (e : ι × Action) : Prop :=
  ∀ p ∈ (w.pc e.1).toSplit, ∀ r ∈ regions w.heap.mem, Holds r p.1 →
    Holds r (additionalBlock p.1 p.2)

/-- The bytes that were asked for. -/
def Allocation.asked (a : Allocation ι) : Extent := ⟨a.pointer, a.size⟩

/-- The payload that is recorded in the header. -/
def Allocation.payload (m : Memory) (a : Allocation ι) : Extent :=
  ⟨a.pointer, get m .size (headerOf a.pointer)⟩

/-- **No two live allocations share a block or a byte**, and each one has the bytes that
were asked for. -/
def NoOverlap (w : World ι) : Prop :=
  (w.live.Pairwise fun a b => a.pointer ≠ b.pointer ∧
    (a.payload w.heap.mem).Disjoint (b.payload w.heap.mem)) ∧
  ∀ a ∈ w.live, a.asked.Within (a.payload w.heap.mem)

/-- **Every block belongs to one user at most.** -/
structure Safe (w : World ι) : Prop where
  sound : Sound w.heap
  held : ∀ i b n, (w.pc i).held = some (b, n) → b ∈ w.heap.created ∧
    n ≤ get w.heap.mem .size b ∧ get w.heap.mem .free b = (w.pc i).mark
  alone : ∀ i j b n m, (w.pc i).held = some (b, n) → (w.pc j).held = some (b, m) → i = j
  live : ∀ a ∈ w.live, ∃ b ∈ w.heap.created, a.pointer = b + blockSize ∧
    get w.heap.mem .free b = 0 ∧ a.size ≤ get w.heap.mem .size b
  kept : ∀ a ∈ w.live, ∀ i b n, (w.pc i).held = some (b, n) → a.pointer ≠ b + blockSize
  once : (w.live.map Allocation.pointer).Nodup

/-- Nobody but thread `i` uses the block. -/
def Unshared (w : World ι) (i : ι) (b : ℕ) : Prop :=
  (∀ j, j ≠ i → ∀ n, (w.pc j).held ≠ some (b, n)) ∧ ∀ a ∈ w.live, a.pointer ≠ b + blockSize

namespace Safe

variable {w : World ι} {i : ι} {b s n : ℕ}

theorem unshared (h : Safe w) (hheld : (w.pc i).held = some (b, n)) : Unshared w i b :=
  ⟨fun j hj m hm => hj (h.alone j i b m n hm hheld), fun a ha => h.kept a ha i b n hheld⟩

variable [DecidableEq ι]

/-- **A step of one thread.**  It may change the block that the thread works with, and
make blocks; the block that it works with next is used by nobody else. -/
theorem next (h : Safe w) {h' : Heap Memory} {pc' : PC} (hsound : Sound h')
    (hgrow : ∀ b ∈ w.heap.created, b ∈ h'.created)
    (hframe : ∀ b ∈ w.heap.created, (∀ n, (w.pc i).held ≠ some (b, n)) →
      get h'.mem .size b = get w.heap.mem .size b ∧
        get h'.mem .free b = get w.heap.mem .free b)
    (hheld : ∀ b n, pc'.held = some (b, n) → Unshared w i b ∧ b ∈ h'.created ∧
      n ≤ get h'.mem .size b ∧ get h'.mem .free b = pc'.mark) :
    Safe (w.next i h' pc') := by
  have hself : (w.next i h' pc').pc i = pc' := Function.update_self ..
  have hother : ∀ j, j ≠ i → (w.next i h' pc').pc j = w.pc j := fun j hj =>
    Function.update_of_ne hj ..
  refine { sound := hsound, held := fun j b n hj => ?_, alone := fun j k b n m hj hk => ?_,
           live := fun a ha => ?_, kept := fun a ha j b n hj => ?_, once := h.once }
  · by_cases hji : j = i
    · rw [hji, hself] at hj ⊢
      exact (hheld b n hj).2
    · rw [hother j hji] at hj ⊢
      obtain ⟨hmem, hsize, hmark⟩ := h.held j b n hj
      obtain ⟨hsize', hfree'⟩ := hframe b hmem fun m hm => hji (h.alone j i b n m hj hm)
      refine ⟨hgrow b hmem, ?_, ?_⟩
      · exact hsize.trans (Nat.le_of_eq hsize'.symm)
      · exact hfree'.trans hmark
  · by_cases hji : j = i <;> by_cases hki : k = i
    · rw [hji, hki]
    · rw [hji, hself] at hj
      rw [hother k hki] at hk
      exact absurd hk ((hheld b n hj).1.1 k hki m)
    · rw [hki, hself] at hk
      rw [hother j hji] at hj
      exact absurd hj ((hheld b m hk).1.1 j hji n)
    · rw [hother j hji] at hj
      rw [hother k hki] at hk
      exact h.alone j k b n m hj hk
  · obtain ⟨b, hmem, hpointer, hfree, hsize⟩ := h.live a ha
    obtain ⟨hsize', hfree'⟩ := hframe b hmem fun m hm => h.kept a ha i b m hm hpointer
    refine ⟨b, hgrow b hmem, hpointer, hfree'.trans hfree, ?_⟩
    exact hsize.trans (Nat.le_of_eq hsize'.symm)
  · by_cases hji : j = i
    · rw [hji, hself] at hj
      exact (hheld b n hj).1.2 a ha
    · rw [hother j hji] at hj
      exact h.kept a ha j b n hj

/-- A step that leaves the blocks alone and after which the thread works with none. -/
theorem rest (h : Safe w) {h' : Heap Memory} {pc' : PC} (hsound : Sound h')
    (hcreated : h'.created = w.heap.created)
    (hget : ∀ f b, get h'.mem f b = get w.heap.mem f b) (hpc : pc'.held = none) :
    Safe (w.next i h' pc') := by
  refine h.next hsound (fun b hb => ?_) (fun b _ _ => ⟨hget _ b, hget _ b⟩) fun b n hheld => ?_
  · rw [hcreated]
    exact hb
  · rw [hpc] at hheld
    cases hheld

/-- A step after which the thread works with the same block in the same heap. -/
theorem keep (h : Safe w) {pc' : PC} {locks : ℕ → Bool}
    (hold : (w.pc i).held = some (b, n)) (hmark : (w.pc i).mark = pc'.mark)
    (hnew : ∀ c m, pc'.held = some (c, m) → c = b ∧ m ≤ get w.heap.mem .size b) :
    Safe (w.next i { w.heap with locks := locks } pc') := by
  obtain ⟨hmem, -, hfree⟩ := h.held i b n hold
  refine h.next (h.sound.of_eq rfl rfl rfl) (fun _ hc => hc) (fun _ _ _ => ⟨rfl, rfl⟩)
    fun c m hheld => ?_
  obtain ⟨rfl, hle⟩ := hnew c m hheld
  exact ⟨h.unshared hold, hmem, hle, hfree.trans hmark⟩

/-- **The split of a block that the thread works with.** -/
theorem split (h : Safe w) {pc' : PC} (hold : (w.pc i).held = some (b, s + blockSize + 4))
    (hmark : (w.pc i).mark = 0) (hnew : pc'.held = some (b, s)) (hmark' : pc'.mark = 0)
    (hroom : ∀ r ∈ regions w.heap.mem, Holds r b → Holds r (additionalBlock b s))
    {cpu : ℕ} {h' : Heap Memory} (hcall : splitBlock w.heap cpu b s = .ok h') :
    Safe (w.next i h' pc') := by
  obtain ⟨hmem, hsize, hfree⟩ := h.held i b _ hold
  have l := h.sound.toLayout
  have p : CanSplit w.heap b s := ⟨hmem, hsize, hroom⟩
  obtain rfl := p.eq_splitHeap l hcall
  refine h.next (h.sound.split p) (fun c hc => List.mem_append_left _ hc)
    (fun c hc hother => ?_) fun c m hheld => ?_
  · have hne : c ≠ b := by
      rintro rfl
      exact hother _ hold
    exact ⟨p.get_other l hc hne .size, p.get_other l hc hne .free⟩
  · rw [hnew, Option.some.injEq, Prod.mk.injEq] at hheld
    obtain ⟨rfl, rfl⟩ := hheld
    refine ⟨h.unshared hold, List.mem_append_left _ hmem, ?_, ?_⟩
    · exact Nat.le_of_eq (p.size_old l).symm
    · rw [hmark', ← hmark, ← hfree]
      exact free_splitMem_old (p.additional_apart l hmem)

omit [DecidableEq ι] in
/-- A block that was found to be free is used by nobody, if no other thread is about to
claim it. -/
theorem unshared_of_fits (h : Safe w) (hfits : Fits w.heap.mem s b)
    (hrace : ∀ j, j ≠ i → ∀ s', w.pc j ≠ .claim s' b) : Unshared w i b := by
  constructor
  · intro j hj m hm
    have hmark := (h.held j b m hm).2.2
    rw [hfits.2] at hmark
    cases hpc : w.pc j with
    | claim s' c =>
      rw [hpc] at hm
      obtain rfl : c = b := congrArg Prod.fst (Option.some.inj hm)
      exact hrace j hj s' hpc
    | _ =>
      rw [hpc] at hmark
      cases hmark
  · intro a ha hpointer
    obtain ⟨c, -, hc, hfree, -⟩ := h.live a ha
    have hone := hfits.2
    rw [Nat.add_right_cancel (hpointer.symm.trans hc), hfree] at hone
    cases hone

/-- **The pointer is given to the program.** -/
theorem hand (h : Safe w) (hheld : (w.pc i).held = some (b, s)) (hmark : (w.pc i).mark = 0) :
    Safe { w.next i w.heap .idle with live := ⟨i, payload b, s⟩ :: w.live } := by
  have hrest : Safe (w.next i w.heap .idle) := h.rest h.sound rfl (fun _ _ => rfl) rfl
  obtain ⟨hmem, hsize, hfree⟩ := h.held i b s hheld
  rw [hmark] at hfree
  have hpayload := h.sound.payload_eq hmem
  refine { sound := h.sound, held := hrest.held, alone := hrest.alone, live := fun a ha => ?_,
           kept := fun a ha j c n hj => ?_, once := ?_ }
  · rcases List.mem_cons.mp ha with rfl | ha
    · exact ⟨b, hmem, hpayload, hfree, hsize⟩
    · exact h.live a ha
  · rcases List.mem_cons.mp ha with rfl | ha
    · by_cases hji : j = i
      · rw [hji] at hj
        have hidle : (w.next i w.heap .idle).pc i = .idle := Function.update_self ..
        rw [show ((w.next i w.heap .idle).pc i).held = none by rw [hidle]; rfl] at hj
        cases hj
      · have hother : (w.next i w.heap .idle).pc j = w.pc j := Function.update_of_ne hji ..
        intro hpointer
        have hbc : b = c := Nat.add_right_cancel (hpayload.symm.trans hpointer)
        rw [show ((w.next i w.heap .idle).pc j).held = (w.pc j).held by rw [hother], ← hbc] at hj
        exact hji (h.alone j i b n s hj hheld)
    · exact hrest.kept a ha j c n hj
  · rw [List.map_cons, List.nodup_cons]
    refine ⟨fun hpointer => ?_, h.once⟩
    obtain ⟨a, ha, hab⟩ := List.mem_map.mp hpointer
    exact h.kept a ha i b s hheld (hab.trans hpayload)

omit [DecidableEq ι] in
/-- Some allocations are given up. -/
theorem sublist (h : Safe w) {l : List (Allocation ι)} (hl : List.Sublist l w.live) :
    Safe { w with live := l } where
  sound := h.sound
  held := h.held
  alone := h.alone
  live a ha := h.live a (hl.subset ha)
  kept a ha := h.kept a (hl.subset ha)
  once := h.once.sublist (hl.map _)

/-- **A pointer is freed by its owner.** -/
theorem free (h : Safe w) {ptr cpu : ℕ} {h' : Heap Memory}
    (hptr : ptr = 0 ∨ ∃ a ∈ w.live, a.owner = i ∧ a.pointer = ptr)
    (hcall : myfree w.heap cpu ptr = .ok h') :
    Safe { w with
      heap := h'
      live := w.live.filter fun a => ¬ (a.owner = i ∧ a.pointer = ptr) } := by
  have hrest := h.sublist (w.live.filter_sublist (p := fun a => ¬ (a.owner = i ∧ a.pointer = ptr)))
  rcases hptr with rfl | ⟨a, ha, howner, rfl⟩
  · rw [myfree_null] at hcall
    obtain rfl := Except.ok.inj hcall
    exact hrest
  · obtain ⟨b, hmem, hpointer, hfree, -⟩ := h.live a ha
    have l := h.sound.toLayout
    have hbound := l.header_bound hmem
    have hne : ∀ c ∈ w.heap.created, c ≠ b → ∀ f,
        get (set w.heap.mem .free b 1) f c = get w.heap.mem f c :=
      fun c hc hcb f => l.get_set hmem hc 1 (Or.inl hcb)
    rw [hpointer, myfree_eq (by omega) (l.header hmem), hfree, if_neg (show (0 : ℕ) ≠ 1 by decide)]
      at hcall
    split at hcall
    · cases hcall
    · obtain rfl := Except.ok.inj hcall
      refine { sound := h.sound.setFree hmem 1, held := fun j c n hj => ?_, alone := h.alone,
               live := fun d hd => ?_, kept := hrest.kept, once := hrest.once }
      · obtain ⟨hc, hsize, hmark⟩ := h.held j c n hj
        have hcb : c ≠ b := by
          rintro rfl
          exact h.kept a ha j c n hj hpointer
        refine ⟨hc, ?_, ?_⟩
        · exact hsize.trans (Nat.le_of_eq (hne c hc hcb .size).symm)
        · exact (hne c hc hcb .free).trans hmark
      · obtain ⟨c, hc, hdc, hdfree, hdsize⟩ := hrest.live d hd
        have hcb : c ≠ b := by
          rintro rfl
          -- the other allocation has the same pointer, so it is the same one
          have hda : d = a := List.inj_on_of_nodup_map h.once (List.mem_filter.mp hd).1 ha
            (hdc.trans hpointer.symm)
          have hkept := of_decide_eq_true (List.mem_filter.mp hd).2
          exact hkept ⟨hda ▸ howner, by rw [hda]⟩
        refine ⟨c, hc, hdc, ?_, ?_⟩
        · exact (hne c hc hcb .free).trans hdfree
        · exact hdsize.trans (Nat.le_of_eq (hne c hc hcb .size).symm)

/-! ## One step -/

omit [DecidableEq ι] in
theorem completed_eq_some {α : Type} {x : Except Stop α} {a : α} (h : completed x = some a) :
    x = .ok a := by
  cases x with
  | error e => cases h
  | ok b => exact congrArg Except.ok (Option.some.inj h)

/-- The search of `mymalloc`. -/
theorem search (h : Safe w) {cpu b : ℕ} {h' : Heap Memory}
    (hrace : ∀ b, Found w.heap cpu s b → ∀ j, j ≠ i → ∀ s', w.pc j ≠ .claim s' b)
    (hcall : findOptimalFreeBlock w.heap cpu s = .ok (h', b)) :
    Safe (w.next i h' (if b ≠ 0 then .claim s b else .extend s)) := by
  obtain ⟨rfl, hfound⟩ := findOptimalFreeBlock_cases hcall
  by_cases hb : b ≠ 0
  · rw [if_pos hb]
    obtain ⟨hmem, hfits⟩ := (h.sound.found_cases hfound).resolve_left hb
    refine h.next h.sound (fun _ hc => hc) (fun _ _ _ => ⟨rfl, rfl⟩) fun c n hheld => ?_
    obtain ⟨rfl, rfl⟩ : b = c ∧ s = n := Prod.mk.inj (Option.some.inj hheld)
    exact ⟨h.unshared_of_fits hfits (hrace b hfound), hmem, hfits.1, hfits.2⟩
  · rw [if_neg hb]
    exact h.rest h.sound rfl (fun _ _ => rfl) rfl

/-- `bestBlock -> free = 0`. -/
theorem claim (h : Safe w) (hpc : w.pc i = .claim s b) {mem : Memory}
    (hcall : store w.heap.mem .free b 0 = .ok mem) :
    Safe (w.next i { w.heap with mem := mem } (.sizeTest s b)) := by
  have hold : (w.pc i).held = some (b, s) := by rw [hpc]; rfl
  obtain ⟨hmem, hsize, -⟩ := h.held i b s hold
  have l := h.sound.toLayout
  rw [store_eq _ _ (l.header hmem)] at hcall
  obtain rfl := Except.ok.inj hcall
  refine h.next (h.sound.setFree hmem 0) (fun _ hc => hc) (fun c hc hother => ?_)
    fun c n hheld => ?_
  · have hne : c ≠ b := by
      rintro rfl
      exact hother _ hold
    exact ⟨l.get_set hmem hc 0 (Or.inl hne), l.get_set hmem hc 0 (Or.inl hne)⟩
  · obtain ⟨rfl, rfl⟩ : b = c ∧ s = n := Prod.mk.inj (Option.some.inj hheld)
    refine ⟨h.unshared hold, hmem, ?_, get_set_of_lt _ b (by decide)⟩
    exact hsize.trans (Nat.le_of_eq (l.get_set hmem hmem 0 (Or.inr (by decide))).symm)

/-- The test of the size in `mymalloc`. -/
theorem sizeTest (h : Safe w) (hpc : w.pc i = .sizeTest s b) {size : ℕ}
    (hcall : load w.heap.mem .size b = .ok size) :
    Safe (w.next i w.heap (if Splittable size s then .split s b else .ret s (some b))) := by
  have hold : (w.pc i).held = some (b, s) := by rw [hpc]; rfl
  have hmark : (w.pc i).mark = 0 := by rw [hpc]; rfl
  obtain ⟨hmem, hsize, -⟩ := h.held i b s hold
  have l := h.sound.toLayout
  rw [load_eq _ (l.header hmem)] at hcall
  obtain rfl := Except.ok.inj hcall
  by_cases hsplit : Splittable (get w.heap.mem .size b) s
  · rw [if_pos hsplit]
    refine h.keep hold hmark fun c n hnew => ?_
    obtain ⟨rfl, rfl⟩ := Prod.mk.inj (Option.some.inj hnew)
    have hbound := l.size_bound hmem
    have hpos := l.ne_zero hmem
    exact ⟨rfl, add_le_of_splittable (by omega) hsplit⟩
  · rw [if_neg hsplit]
    refine h.keep hold hmark fun c n hnew => ?_
    obtain ⟨rfl, rfl⟩ := Prod.mk.inj (Option.some.inj hnew)
    exact ⟨rfl, hsize⟩

/-- A mutex is locked again behind the split. -/
theorem relock (h : Safe w) {c : ℕ} (hpc : w.pc i = .relock s b c) {h' : Heap Memory}
    (hcall : lockMutex w.heap c = .ok h') :
    Safe (w.next i (unlockMutex h' c) (.ret s (some b))) := by
  have hold : (w.pc i).held = some (b, s) := by rw [hpc]; rfl
  rw [lockMutex] at hcall
  split at hcall
  · cases hcall
  · obtain rfl := Except.ok.inj hcall
    refine h.keep hold (by rw [hpc]; rfl) fun d n hnew => ?_
    obtain ⟨rfl, rfl⟩ := Prod.mk.inj (Option.some.inj hnew)
    exact ⟨rfl, (h.held i _ _ hold).2.1⟩

/-- `extendMemory` up to the split. -/
theorem extend (h : Safe w) {cpu lastCpu : ℕ} {answer : Option ℕ}
    {h' : Heap Memory} {new : Option (ℕ × Bool)}
    (hfresh : ∀ a, answer = some a → Fresh w.heap.mem (request s a).1)
    (hcall : extendSection w.heap cpu lastCpu s answer = .ok (h', new)) :
    Safe (w.next i h' (afterExtend s cpu new)) := by
  have l := h.sound.toLayout
  have hlast : ∀ last, getLastBlock w.heap lastCpu = .ok last → last = 0 ∨ last ∈ w.heap.created :=
    fun last hwalk => h.sound.last_mem hwalk
  rcases l.extendSection_cases hfresh hlast hcall with
    ⟨-, rfl, rfl⟩ | ⟨a, last, hanswer, hwalk, k, rfl⟩
  · exact h.rest h.sound rfl (fun _ _ => rfl) rfl
  · have ha := hfresh a hanswer
    have hmem := hlast last hwalk
    have hnew := l.new_notMem ha
    have hnewmem : a ∈ h'.created := k.mem_created.mpr (Or.inr rfl)
    have hsize := k.size_new l ha hmem
    obtain ⟨-, hstop, hle, -⟩ := request_spec ha.stop
    have hunshared : Unshared w i a := by
      constructor
      · exact fun j _ m hm => hnew (h.held j a m hm).1
      · intro d hd hpointer
        obtain ⟨c, hc, hdc, -⟩ := h.live d hd
        rw [Nat.add_right_cancel (hpointer.symm.trans hdc)] at hnew
        exact hnew hc
    have hstep : ∀ pc' : PC, pc'.mark = 0 → (∀ c n, pc'.held = some (c, n) →
        c = a ∧ n ≤ (request s a).2) → Safe (w.next i h' pc') := by
      intro pc' hmark hheld
      refine h.next (h.sound.linked ha hmem k) (fun c hc => k.mem_created.mpr (Or.inl hc))
        (fun c hc _ => ⟨k.get_old l ha hmem hc (by decide), k.get_old l ha hmem hc (by decide)⟩)
        fun c n hc => ?_
      obtain ⟨rfl, hn⟩ := hheld c n hc
      exact ⟨hunshared, hnewmem, hn.trans (Nat.le_of_eq hsize.symm),
        (k.free_new l ha hmem).trans hmark.symm⟩
    by_cases hsplit : Splittable (request s a).2 s
    · rw [decide_eq_true hsplit]
      refine hstep _ rfl fun c n hc => ?_
      obtain ⟨rfl, rfl⟩ := Prod.mk.inj (Option.some.inj hc)
      have hbound := ha.stop
      have hin := (request_spec ha.stop).1
      have hpos : 0 < a := Nat.lt_of_lt_of_le ha.pos hin.1
      exact ⟨rfl, add_le_of_splittable (by omega) hsplit⟩
    · rw [decide_eq_false hsplit]
      refine hstep _ rfl fun c n hc => ?_
      obtain ⟨rfl, rfl⟩ := Prod.mk.inj (Option.some.inj hc)
      exact ⟨rfl, hle⟩

/-- **One step of a thread in a call.** -/
theorem goOn (h : Safe w) {cpus cpu lastCpu : ℕ} {answer : Option ℕ} {w' : World ι}
    (hallowed : Allowed cpus w (i, .go cpu lastCpu answer))
    (hrace : NoRace w (i, .go cpu lastCpu answer))
    (hroom : RoomToSplit w (i, .go cpu lastCpu answer))
    (hstep : goOn cpus w i cpu lastCpu answer (w.pc i) = some w') : Safe w' := by
  cases hpc : w.pc i with
  | idle =>
    rw [hpc] at hstep
    cases hstep
  | test s =>
    rw [hpc] at hstep
    obtain rfl := Option.some.inj hstep
    refine h.rest h.sound rfl (fun _ _ => rfl) ?_
    split <;> rfl
  | allocate s =>
    rw [hpc] at hstep
    obtain rfl := Option.some.inj hstep
    cases answer with
    | none => exact h.rest (h.sound.allocateHeads fun x hx => nomatch hx) rfl (fun _ _ => rfl) rfl
    | some a =>
      refine h.rest (h.sound.allocateHeads fun x hx => ?_) rfl (fun _ _ => get_map _ _ _ _) rfl
      rw [← Option.some.inj hx]
      exact hallowed a rfl _ (by rw [hpc]; rfl)
  | initLock s x =>
    rw [hpc, Threads.goOn] at hstep
    split at hstep
    · obtain rfl := Option.some.inj hstep
      exact h.rest (h.sound.of_eq rfl rfl rfl) rfl (fun _ _ => rfl) rfl
    · obtain rfl := Option.some.inj hstep
      exact h.rest h.sound rfl (fun _ _ => rfl) rfl
  | search s =>
    rw [hpc] at hstep
    obtain ⟨⟨h', b⟩, hcall, hnext⟩ := Option.bind_eq_some_iff.mp hstep
    obtain rfl := Option.some.inj hnext
    exact h.search (hrace s cpu lastCpu answer hpc rfl) (completed_eq_some hcall)
  | claim s b =>
    rw [hpc] at hstep
    obtain ⟨mem, hcall, hnext⟩ := Option.bind_eq_some_iff.mp hstep
    obtain rfl := Option.some.inj hnext
    exact h.claim hpc (completed_eq_some hcall)
  | sizeTest s b =>
    rw [hpc] at hstep
    obtain ⟨size, hcall, hnext⟩ := Option.bind_eq_some_iff.mp hstep
    obtain rfl := Option.some.inj hnext
    exact h.sizeTest hpc (completed_eq_some hcall)
  | split s b =>
    rw [hpc] at hstep
    obtain ⟨h', hcall, hnext⟩ := Option.bind_eq_some_iff.mp hstep
    obtain rfl := Option.some.inj hnext
    exact h.split (by rw [hpc]; rfl) (by rw [hpc]; rfl) rfl rfl (hroom (b, s) (by rw [hpc]; rfl))
      (completed_eq_some hcall)
  | extend s =>
    rw [hpc] at hstep
    obtain ⟨⟨h', new⟩, hcall, hnext⟩ := Option.bind_eq_some_iff.mp hstep
    obtain rfl := Option.some.inj hnext
    exact h.extend (fun a ha => hallowed a ha _ (by rw [hpc]; rfl)) (completed_eq_some hcall)
  | extendSplit s b c =>
    rw [hpc] at hstep
    obtain ⟨h', hcall, hnext⟩ := Option.bind_eq_some_iff.mp hstep
    obtain rfl := Option.some.inj hnext
    exact h.split (by rw [hpc]; rfl) (by rw [hpc]; rfl) rfl rfl (hroom (b, s) (by rw [hpc]; rfl))
      (completed_eq_some hcall)
  | relock s b c =>
    rw [hpc] at hstep
    obtain ⟨h', hcall, hnext⟩ := Option.bind_eq_some_iff.mp hstep
    obtain rfl := Option.some.inj hnext
    exact h.relock hpc (completed_eq_some hcall)
  | ret s block =>
    rw [hpc] at hstep
    cases block with
    | none =>
      obtain rfl := Option.some.inj hstep
      exact h.rest h.sound rfl (fun _ _ => rfl) rfl
    | some b =>
      obtain rfl := Option.some.inj hstep
      exact h.hand (by rw [hpc]; rfl) (by rw [hpc]; rfl)

/-- **One step under the conditions.** -/
theorem step (h : Safe w) {cpus : ℕ} {e : ι × Action} {w' : World ι} (hrace : NoRace w e)
    (hroom : RoomToSplit w e) (hstep : Step cpus w e () w') : Safe w' := by
  obtain ⟨hallowed, hstep⟩ := hstep
  obtain ⟨i, action⟩ := e
  rw [Threads.step] at hstep
  cases action with
  | malloc s =>
    dsimp only at hstep
    split at hstep
    · obtain rfl := Option.some.inj hstep
      exact h.rest h.sound rfl (fun _ _ => rfl) rfl
    · cases hstep
  | free ptr cpu =>
    dsimp only at hstep
    split at hstep
    · obtain ⟨h', hcall, hnext⟩ := Option.bind_eq_some_iff.mp hstep
      obtain rfl := Option.some.inj hnext
      exact h.free hallowed (completed_eq_some hcall)
    · cases hstep
  | go cpu lastCpu answer => exact h.goOn hallowed hrace hroom hstep

end Safe

/-! ## Runs -/

variable {w : World ι}

theorem safe_of_initial (hinit : Initial w) : Safe w := by
  have hidle : ∀ i, (w.pc i).held = none := by
    intro i
    rw [hinit.pc i]
    rfl
  have hcreated : ∀ b, b ∉ w.heap.created := by
    intro b
    rw [hinit.created]
    exact List.not_mem_nil
  have hlive : ∀ a, a ∉ w.live := by
    intro a
    rw [hinit.live]
    exact List.not_mem_nil
  have hmapped : ∀ r, r ∉ regions w.heap.mem := by
    intro r
    rw [show regions w.heap.mem = [] from hinit.regions]
    exact List.not_mem_nil
  refine { sound := ⟨⟨?_, fun r hr => absurd hr (hmapped r), fun b hb => absurd hb (hcreated b),
             fun r hr => absurd hr (hmapped r)⟩, fun b hb => absurd hb (hcreated b),
             fun cpu => Or.inl ?_⟩
           held := fun i b n hi => ?_, alone := fun i j b n m hi => ?_,
           live := fun a ha => absurd ha (hlive a), kept := fun a ha => absurd ha (hlive a)
           once := ?_ }
  · rw [show regions w.heap.mem = [] from hinit.regions]
    exact List.Pairwise.nil
  · rw [Heap.listHead, hinit.blockHead]
  · rw [hidle i] at hi
    cases hi
  · rw [hidle i] at hi
    cases hi
  · rw [hinit.live]
    exact List.nodup_nil

/-- Blocks with one user each are disjoint payloads. -/
theorem Safe.noOverlap (h : Safe w) : NoOverlap w := by
  have l := h.sound.toLayout
  have hpayload : ∀ {a : Allocation ι} {b : ℕ}, b ∈ w.heap.created → a.pointer = b + blockSize →
      a.payload w.heap.mem = ⟨b + blockSize, get w.heap.mem .size b⟩ := by
    intro a b hb hpointer
    have hbound := l.header_bound hb
    rw [Allocation.payload, hpointer, headerOf_add (by omega)]
  constructor
  · have hne : w.live.Pairwise fun a b => a.pointer ≠ b.pointer :=
      List.pairwise_map.mp h.once
    refine hne.imp_of_mem fun {a d} ha hd hne => ⟨hne, ?_⟩
    obtain ⟨b, hb, hab, -⟩ := h.live a ha
    obtain ⟨c, hc, hdc, -⟩ := h.live d hd
    rw [hpayload hb hab, hpayload hc hdc]
    have hbc : b ≠ c := by
      rintro rfl
      exact hne (hab.trans hdc.symm)
    rcases Nat.lt_or_gt_of_ne hbc with hlt | hlt
    · exact Or.inl (l.payload_before hb hc hlt)
    · exact Or.inr (l.payload_before hc hb hlt)
  · intro a ha
    obtain ⟨b, hb, hab, -, hsize⟩ := h.live a ha
    rw [hpayload hb hab, Allocation.asked, hab]
    exact ⟨Nat.le_refl _, Nat.add_le_add_left hsize _⟩

variable [DecidableEq ι]

/-- **No two live allocations overlap, under the conditions.**  In every run from the
empty heap, for any number of threads, any schedule and any processors, in which no
search ends with a block that another thread is about to claim and every split has
room for its header, the live allocations have different blocks and disjoint
payloads. -/
theorem no_overlap_of_run (cpus : ℕ) (w₀ w : World ι) (hinit : Initial w₀)
    (tr : List ((ι × Action) × Unit))
    (hrun : Run (Guarded (fun w e => NoRace w e ∧ RoomToSplit w e) (Step cpus)) w₀ tr w) :
    NoOverlap w := by
  have h : Safe w := hrun.invariant (P := Safe)
    (fun _ _ _ _ h hs => h.step hs.1.1 hs.1.2 hs.2) (safe_of_initial hinit)
  exact h.noOverlap

/-! ## Two threads -/

/-- Two threads before their first calls, in a memory of zeros. -/
def twoThreads : World (Fin 2) :=
  { heap := ⟨⟨fun _ => 0, []⟩, .null, fun _ => false, []⟩, pc := fun _ => .idle, live := [] }

theorem initial_twoThreads : Initial twoThreads := ⟨rfl, rfl, rfl, fun _ => rfl, fun _ => rfl, rfl⟩

/-- The thread goes on, on one processor. -/
def go (cpu : ℕ) : Action := .go cpu cpu none

/-- The two threads get a block each, on two processors.  The first one frees its block, and
the second one finds it, claims it and splits it while the first one gets another
block. -/
def sharingTrace : List (Fin 2 × Action) :=
  [(0, .malloc 100), (0, go 0), (0, .go 0 0 (some 4096)), (0, go 0), (0, go 0), (0, go 0),
   (0, go 0), (1, .malloc 8), (1, go 1), (0, .go 0 0 (some 8192)), (1, go 1), (0, go 0),
   (1, .go 1 0 (some 12288)), (1, go 1), (0, .free 8216 1),
   (1, .malloc 10), (1, go 0), (0, .malloc 4), (0, go 0), (1, go 0), (1, go 0), (1, go 0),
   (0, go 0), (1, go 0), (0, .go 0 0 (some 16384)), (1, go 0), (0, go 0)]

/-- No thread but this one is about to claim a block. -/
def Calm (w : World (Fin 2)) (e : Fin 2 × Action) : Prop :=
  (∀ j, j ≠ e.1 → (w.pc j).mark = 0) ∧ RoomToSplit w e

instance (w : World (Fin 2)) (e : Fin 2 × Action) : Decidable (Calm w e) :=
  inferInstanceAs (Decidable ((∀ j, j ≠ e.1 → (w.pc j).mark = 0) ∧
    ∀ p ∈ (w.pc e.1).toSplit, ∀ r ∈ w.heap.mem.mapped, Holds r p.1 →
      Holds r (additionalBlock p.1 p.2)))

theorem run_sharingTrace : ∃ w : World (Fin 2),
    Run (Guarded (fun w e => NoRace w e ∧ RoomToSplit w e) (Step 2)) twoThreads
      (sharingTrace.map fun e => (e, ())) w ∧
    w.live = [⟨0, 16408, 4⟩, ⟨1, 8216, 10⟩, ⟨1, 12312, 8⟩] := by
  obtain ⟨w, hw, hlive⟩ : ∃ w ∈ sharingTrace.foldlM
      (fun w e => if Allowed 2 w e ∧ Calm w e then step 2 w e else none) twoThreads,
      w.live = [⟨0, 16408, 4⟩, ⟨1, 8216, 10⟩, ⟨1, 12312, 8⟩] := by
    decide +kernel
  refine ⟨w, (Run.guarded_of_foldlM hw).mono fun v e _ v' hs => ?_, hlive⟩
  refine ⟨⟨fun s cpu lastCpu answer _ _ b _ j hj s' hpc => ?_, hs.1.2.2⟩, hs.1.1, hs.2⟩
  have hmark := hs.1.2.1 j hj
  rw [hpc] at hmark
  cases hmark

/-- The three allocations of this run are disjoint. -/
theorem no_overlap_sharing : ∃ w : World (Fin 2), NoOverlap w ∧
    w.live = [⟨0, 16408, 4⟩, ⟨1, 8216, 10⟩, ⟨1, 12312, 8⟩] := by
  obtain ⟨w, hrun, hlive⟩ := run_sharingTrace
  exact ⟨w, no_overlap_of_run 2 twoThreads w initial_twoThreads _ hrun, hlive⟩

/-- The first thread gets a block and frees it.  Both threads find it before one of them
has claimed it. -/
def racingTrace : List (Fin 2 × Action) :=
  [(0, .malloc 8), (0, go 0), (0, .go 0 0 (some 4096)), (0, go 0), (0, go 0), (0, go 0),
   (0, .go 0 0 (some 8192)), (0, go 0), (0, .free 8216 0),
   (0, .malloc 8), (0, go 0), (0, go 0), (1, .malloc 8), (1, go 0), (1, go 0),
   (0, go 0), (0, go 0), (0, go 0), (1, go 0), (1, go 0), (1, go 0)]

/-- **One block for two threads.** -/
theorem not_no_overlap : ∃ w : World (Fin 2), Initial twoThreads ∧
    Run (Step 1) twoThreads (racingTrace.map fun e => (e, ())) w ∧
    w.live = [⟨1, 8216, 8⟩, ⟨0, 8216, 8⟩] ∧ ¬ NoOverlap w := by
  obtain ⟨w, hw, hlive⟩ : ∃ w ∈ racingTrace.foldlM
      (fun w e => if Allowed 1 w e then step 1 w e else none) twoThreads,
      w.live = [⟨1, 8216, 8⟩, ⟨0, 8216, 8⟩] := by
    decide +kernel
  refine ⟨w, initial_twoThreads, Run.guarded_of_foldlM hw, hlive, fun hno => ?_⟩
  have hpairs := hno.1
  rw [hlive] at hpairs
  exact (List.pairwise_cons.mp hpairs).1 _ List.mem_cons_self |>.1 rfl

end Threads
end AdvancedMemory
end SystemsProjects

import SystemsProjects.AdvancedMemory.Records

/-!
# No block is much larger than its request

A program that moves from processor to processor, also within a call.  Its lists may lose
blocks, and the same block may be on several of them, but no list ever leaves the blocks that
have been made (`AnyLists`).  This is all that a search and a walk to the end need in order to
return a block.

Every block that `mymalloc` returns has passed the same test, at one of two places.  If its
size is at least `s + 28`, a header and four bytes more than the request, it is split and has
size `s` from then on.  If not, it is returned as it is.  So it does not matter whether the size
came from `sbrk`, from the pages of `mmap` or from a block that was freed: the block is `Served`
with a size less than `s + 28`.

Afterwards the size of a live block does not change.  A split changes the block that
is being handed out and makes a new one, at an address inside that block's span, where no other
block is (`Spans.additional_notMem`).
-/

namespace SystemsProjects
namespace AdvancedMemory

open Lib Allocator BlockStore

variable {h h' : Heap Records} {a b c cpu cpus s q : ℕ} {env : Environment}

/-! ## Lists of any kind -/

/-- The lists do not leave the blocks. -/
structure AnyLists (h : Heap Records) : Prop extends Spans h where
  next : ∀ b ∈ h.created, get h.mem .next b = 0 ∨ get h.mem .next b ∈ h.created
  heads : ∀ cpu, h.listHead cpu = 0 ∨ h.listHead cpu ∈ h.created

namespace AnyLists

theorem of_initial (hinit : Initial h) : AnyLists h where
  bound r hr := by
    rw [hinit.regions] at hr
    exact absurd hr List.not_mem_nil
  home b hb := by
    rw [hinit.created] at hb
    exact absurd hb List.not_mem_nil
  before b hb := by
    rw [hinit.created] at hb
    exact absurd hb List.not_mem_nil
  next b hb := by
    rw [hinit.created] at hb
    exact absurd hb List.not_mem_nil
  heads x := by
    rw [Heap.listHead, hinit.blockHead]
    exact Or.inl rfl

theorem closed (k : AnyLists h) : Closed h.mem (· ∈ h.created) := ⟨fun _ => k.header, k.next⟩

theorem head_mem (k : AnyLists h) {list : ℕ} (hhead : h.head cpu = .ok list) :
    list = 0 ∨ list ∈ h.created := by
  rw [← listHead_of_head hhead]
  exact k.heads cpu

/-- A search that returns has found a block that fits, or nothing. -/
theorem found_cases (k : AnyLists h) (hfound : Found h cpu s b) :
    b = 0 ∨ (b ∈ h.created ∧ Fits h.mem s b) := by
  obtain ⟨list, hhead, hsearch⟩ := hfound
  exact k.closed.of_searchList (k.head_mem hhead) hsearch

/-- A walk to the end that returns has found a block, or an empty list. -/
theorem last_mem (k : AnyLists h) {last : ℕ} (hwalk : getLastBlock h cpu = .ok last) :
    last = 0 ∨ last ∈ h.created := by
  rw [getLastBlock] at hwalk
  obtain ⟨list, hhead, hwalk⟩ := bind_eq_ok.mp hwalk
  exact (k.closed.of_lastOfList (k.head_mem hhead) hwalk).imp And.right And.left

theorem next_lt (k : AnyLists h) (hb : b ∈ h.created) : get h.mem .next b < 2 ^ 64 := by
  rcases k.next b hb with hnull | hmem
  · rw [hnull]
    decide
  · exact (k.lt hmem).trans (by decide)

/-- Marking a block. -/
theorem setFree (k : AnyLists h) (v : ℕ) : AnyLists { h with mem := set h.mem .free b v } where
  toSpans := k.toSpans.of_fields (regions_set _ _ _ _) rfl fun _ _ =>
    get_set_records v (Or.inr (by decide))
  next c hc := by
    show get (set h.mem .free b v) .next c = 0 ∨ get (set h.mem .free b v) .next c ∈ h.created
    rw [get_set_records v (Or.inr (by decide))]
    exact k.next c hc
  heads := k.heads

/-- The mutexes do not matter. -/
theorem of_eq (k : AnyLists h) (hmem : h'.mem = h.mem) (hheads : h'.blockHead = h.blockHead)
    (hcreated : h'.created = h.created) : AnyLists h' where
  toSpans := k.toSpans.of_fields (by rw [hmem]) hcreated fun _ _ => by rw [hmem]
  next := by
    rw [hmem, hcreated]
    exact k.next
  heads x := by
    have hhead : h'.listHead x = h.listHead x := by
      rw [Heap.listHead, hheads]
      rfl
    rw [hhead, hcreated]
    exact k.heads x

/-- **A split** links the second half in behind the first one. -/
theorem split (k : AnyLists h) (hb : b ∈ h.created)
    (hsize : s + blockSize + 4 ≤ get h.mem .size b) : AnyLists (splitHeap h b s) where
  toSpans := k.toSpans.split hb hsize
  next c hc := by
    have hleft : ∀ {x}, x ∈ h.created → x ∈ h.created ++ [additionalBlock b s] :=
      fun hx => List.mem_append_left _ hx
    show get (splitMem h.mem b s) .next c = 0 ∨
      get (splitMem h.mem b s) .next c ∈ h.created ++ [additionalBlock b s]
    rcases List.mem_append.mp hc with hc | hc
    · by_cases hcb : c = b
      · rw [hcb, next_splitMem_old]
        exact Or.inr (List.mem_append_right _ List.mem_cons_self)
      · rw [k.get_split_other hb hsize hc hcb]
        exact (k.next c hc).imp_right hleft
    · rw [List.mem_singleton.mp hc,
        next_splitMem_new (k.additional_ne hb hsize hb) (k.next_lt hb)]
      exact (k.next b hb).imp_right hleft
  heads x := (k.heads x).imp_right fun hx => List.mem_append_left _ hx

/-- **A new block** goes behind any block, or into any list. -/
theorem linked (k : AnyLists h) (hfresh : Fresh h.mem (request s a).1) {last : ℕ}
    (hlink : Linked h cpu last s a h') : AnyLists h' where
  toSpans := k.toSpans.linked hfresh hlink
  next c hc := by
    have hold : ∀ x ∈ h.created, get (extendedMem h.mem s a) .next x = get h.mem .next x := by
      refine fun x hx => get_withHeader (fun hax => ?_) .next
      exact k.new_notMem hfresh (show a ∈ h.created from hax ▸ hx)
    have hextended : get (extendedMem h.mem s a) .next c = 0 ∨
        get (extendedMem h.mem s a) .next c ∈ h'.created := by
      rcases hlink.mem_created.mp hc with hc | rfl
      · rw [hold c hc]
        exact (k.next c hc).imp_right fun hx => hlink.mem_created.mpr (Or.inl hx)
      · exact Or.inl (next_withHeader (by decide))
    have ha := (k.toSpans.linked hfresh hlink).lt (hlink.mem_created.mpr (Or.inr rfl))
    cases hlink with
    | head => exact hextended
    | behind _ =>
      show get (set (extendedMem h.mem s a) .next last a) .next c = 0 ∨
        get (set (extendedMem h.mem s a) .next last a) .next c ∈ _
      by_cases hcl : c = last
      · rw [hcl, get_set_of_lt _ last (ha.trans (by decide))]
        exact Or.inr (List.mem_append_right _ List.mem_cons_self)
      · rw [get_set_records a (Or.inl hcl)]
        exact hextended
  heads x := by
    have hx : h.listHead x = 0 ∨ h.listHead x ∈ h'.created :=
      (k.heads x).imp_right fun hx => hlink.mem_created.mpr (Or.inl hx)
    have hnew := hlink.mem_created.mpr (Or.inr rfl)
    cases hlink with
    | behind => exact hx
    | head _ hheads hcpu =>
      rw [listHead_set hheads hcpu rfl]
      by_cases hcpu' : x = cpu
      · rw [hcpu', Function.update_self]
        exact Or.inr hnew
      · rw [Function.update_of_ne hcpu']
        exact hx

/-- The list heads are set up by the first call. -/
theorem init (k : AnyLists h) {answer : Option ℕ}
    (hfresh : ∀ x, h.blockHead = .null → answer = some x → Fresh h.mem ⟨x, 8 * cpus⟩) :
    AnyLists (initHeap h cpus answer) := by
  rw [initHeap]
  by_cases hnull : h.blockHead = .null
  · rw [if_pos hnull]
    obtain ⟨hmem, hheads, hcreated⟩ := initLocks_fields (allocateHeads h cpus answer) cpus
    suffices hset : AnyLists (allocateHeads h cpus answer) from hset.of_eq hmem hheads hcreated
    have hempty : ∀ x, (allocateHeads h cpus answer).listHead x = 0 :=
      listHead_allocateHeads answer
    cases answer with
    | none =>
      exact ⟨k.toSpans.of_fields rfl rfl fun _ _ => rfl, k.next, fun x => Or.inl (hempty x)⟩
    | some x =>
      exact ⟨(k.toSpans.map (hfresh x hnull rfl)).of_fields rfl rfl fun _ _ => rfl, k.next,
        fun x => Or.inl (hempty x)⟩
  · rw [if_neg hnull]
    exact k

end AnyLists

/-! ## A block is handed out -/

theorem lt_of_not_splittable {size : ℕ} (hwhole : ¬ Splittable size s) :
    size < s + blockSize + 4 :=
  Nat.lt_of_lt_of_le (Nat.not_le.mp hwhole) (Nat.mod_le _ _)

/-- The block `b` is taken for `s` bytes, and it may still be split. -/
structure Claimed (h h' : Heap Records) (b s : ℕ) : Prop where
  lists : AnyLists h'
  kept : OthersKept h h' b
  idle : b ∈ h.created → get h.mem .free b ≠ 0
  mem : b ∈ h'.created
  taken : get h'.mem .free b = 0
  large : s ≤ get h'.mem .size b

/-- **The block `b` is returned for a request of `s` bytes.** -/
structure Served (h h' : Heap Records) (b s : ℕ) : Prop extends Claimed h h' b s where
  tight : get h'.mem .size b < s + 28

namespace Claimed

/-- A free block is taken. -/
theorem claim (k : AnyLists h) (hb : b ∈ h.created) (hfits : Fits h.mem s b) :
    Claimed h (claim h b) b s where
  lists := k.setFree 0
  kept := ⟨fun _ hc => hc, fun _ _ hcb _ _ => get_set_records 0 (Or.inl hcb)⟩
  idle _ := by
    rw [hfits.2]
    exact Nat.one_ne_zero
  mem := hb
  taken := get_set_of_lt _ b (by decide)
  large := hfits.1.trans (get_set_records 0 (Or.inr (by decide))).ge

/-- A new block is linked in. -/
theorem linked (k : AnyLists h) (hfresh : Fresh h.mem (request s a).1) {last : ℕ}
    (hlink : Linked h cpu last s a h') : Claimed h h' a s where
  lists := k.linked hfresh hlink
  kept := ⟨fun c hc => hlink.mem_created.mpr (Or.inl hc),
    fun c _ hca f hf => hlink.get_records_old hca hf⟩
  idle hmem := absurd hmem (k.new_notMem hfresh)
  mem := hlink.mem_created.mpr (Or.inr rfl)
  taken := (hlink.get_records (by decide)).trans (free_withHeader (by decide))
  large := by
    obtain ⟨-, -, hle, hlt⟩ := request_spec hfresh.stop
    rw [hlink.get_records (by decide), extendedMem, size_withHeader hlt]
    exact hle

/-- The request is one that the block has room for. -/
theorem add_le (o : Claimed h h' b s) (hsplit : Splittable (get h'.mem .size b) s) :
    s + blockSize + 4 ≤ get h'.mem .size b := by
  refine add_le_of_splittable ?_ hsplit
  have hbound := o.lists.size_bound o.mem
  have hne := o.lists.ne_zero o.mem
  have hlarge := o.large
  omega

/-- **Without a split** the block is less than 28 bytes larger than the request. -/
theorem whole (o : Claimed h h' b s) (hwhole : ¬ Splittable (get h'.mem .size b) s) :
    Served h h' b s :=
  ⟨o, lt_of_not_splittable hwhole⟩

/-- **After a split** it has the size of the request. -/
theorem split (o : Claimed h h' b s) (hsplit : Splittable (get h'.mem .size b) s) :
    Served h (splitHeap h' b s) b s := by
  have hsize := o.add_le hsplit
  have hexact : get (splitHeap h' b s).mem .size b = s := o.lists.size_split_old o.mem hsize
  refine ⟨⟨o.lists.split o.mem hsize, o.kept.trans ?_, o.idle, ?_, ?_, hexact.ge⟩, ?_⟩
  · exact ⟨fun _ hc => List.mem_append_left _ hc, fun _ hc hcb f _ =>
      o.lists.get_split_other o.mem hsize hc hcb f⟩
  · exact List.mem_append_left _ o.mem
  · exact (free_splitMem_old (o.lists.additional_ne o.mem hsize o.mem)).trans o.taken
  · rw [hexact]
    omega

/-- `splitBlock` on a block that is taken, if it returns. -/
theorem of_splitBlock (o : Claimed h h' b s) (hsplit : Splittable (get h'.mem .size b) s)
    {h₁ : Heap Records} (hcall : splitBlock h' cpu b s = .ok h₁) : Served h h₁ b s := by
  have hsize := o.add_le hsplit
  rw [splitBlock_eq (o.lists.header o.mem) (o.lists.header_additional o.mem hsize)
    (o.lists.additional_ne o.mem hsize o.mem)] at hcall
  split at hcall
  · cases hcall
  · rw [← Except.ok.inj hcall]
    exact o.split hsplit

end Claimed

/-! ## How `mymalloc` returns -/

namespace AnyLists

/-- `extendMemory` is refused, or it returns a new block. -/
theorem extendMemory_cases (k : AnyLists h)
    (hfresh : ∀ a, env.answer = some a → Fresh h.mem (request s a).1)
    (hcall : extendMemory h env s = .ok (h', q)) :
    (q = 0 ∧ h' = h) ∨ ∃ b, q = b + blockSize ∧ Served h h' b s := by
  have hnew : ∀ a, env.answer = some a →
      Header (map h.mem (request s a).1) a ∧ (request s a).2 < 2 ^ 64 := fun a ha =>
    ⟨header_new (hfresh a ha), (request_spec (hfresh a ha).stop).2.2.2⟩
  have hlast : ∀ a last, env.answer = some a → getLastBlock h env.last = .ok last →
      last = 0 ∨ (Header h.mem last ∧ Apart Records last a) := fun a last ha hwalk =>
    (k.last_mem hwalk).imp_right fun hmem =>
      ⟨k.header hmem, fun heq => k.new_notMem (hfresh a ha) (heq ▸ hmem)⟩
  rcases extendMemory_eq_ok hcall with ⟨hsection, hq⟩ | ⟨h₁, a, toSplit, hsection, hq, htail⟩
  · rcases extendSection_cases hnew hlast hsection with ⟨-, heq, -⟩ | ⟨a, last, -, -, -, hsome⟩
    · exact Or.inl ⟨hq, heq⟩
    · cases hsome
  · rcases extendSection_cases hnew hlast hsection with
      ⟨-, -, hnone⟩ | ⟨a', last, hanswer, -, hlink, hsome⟩
    · cases hnone
    · rw [Option.some.injEq, Prod.mk.injEq] at hsome
      obtain ⟨rfl, rfl⟩ := hsome
      have ha := hfresh a hanswer
      have o := Claimed.linked k ha hlink
      have hsize : get h₁.mem .size a = (request s a).2 :=
        (hlink.get_records (by decide)).trans (size_withHeader (request_spec ha.stop).2.2.2)
      rw [o.lists.payload_eq o.mem] at hq
      rw [← hsize] at htail
      refine Or.inr ⟨a, hq, ?_⟩
      by_cases hsplit : Splittable (get h₁.mem .size a) s
      · rw [decide_eq_true hsplit, if_pos rfl] at htail
        exact o.of_splitBlock hsplit htail
      · rw [decide_eq_false hsplit, if_neg (by decide)] at htail
        rw [htail]
        exact o.whole hsplit

/-- **`mymalloc` is refused, or it returns a block**, whatever the processors are. -/
theorem mymalloc_cases (k : AnyLists (initHeap h cpus env.heads))
    (hfresh : ∀ a, env.answer = some a → Fresh (initHeap h cpus env.heads).mem (request s a).1)
    (hcall : mymalloc h cpus env s = .ok (h', q)) :
    (q = 0 ∧ h' = initHeap h cpus env.heads) ∨
      ∃ b, q = b + blockSize ∧ Served (initHeap h cpus env.heads) h' b s := by
  obtain ⟨⟨h₁, b⟩, hfind, -⟩ := bind_eq_ok.mp hcall
  obtain ⟨rfl, hfound⟩ := findOptimalFreeBlock_cases hfind
  rcases k.found_cases hfound with rfl | ⟨hb, hfits⟩
  · rw [mymalloc_of_none hfind] at hcall
    exact k.extendMemory_cases hfresh hcall
  · rw [mymalloc_of_found hfind (k.ne_zero hb) (k.header hb), k.payload_eq hb] at hcall
    have o := Claimed.claim k hb hfits
    have hsize : get (claim (initHeap h cpus env.heads) b).mem .size b =
        get (initHeap h cpus env.heads).mem .size b := get_set_records 0 (Or.inr (by decide))
    rw [← hsize] at hcall
    refine Or.inr ⟨b, ?_⟩
    split at hcall
    · rename_i hsplit
      obtain ⟨h₂, hsplitBlock, hreturn⟩ := bind_eq_ok.mp hcall
      rw [pure_eq_ok, Except.ok.injEq, Prod.mk.injEq] at hreturn
      obtain ⟨rfl, rfl⟩ := hreturn
      exact ⟨rfl, o.of_splitBlock hsplit hsplitBlock⟩
    · rename_i hwhole
      rw [Except.ok.injEq, Prod.mk.injEq] at hcall
      obtain ⟨rfl, rfl⟩ := hcall
      exact ⟨rfl, o.whole hwhole⟩

end AnyLists

/-! ## Programs -/

/-- The heap, and the live pointers with the sizes that were asked for. -/
structure RecordProgram where
  heap : Heap Records
  live : List (ℕ × ℕ)

namespace RecordProgram

/-- The live pointers after a call that returned `out`. -/
def liveAfter (p : RecordProgram) (out : ℕ) : Call → List (ℕ × ℕ)
  | .malloc s _ => if out = 0 then p.live else (out, s) :: p.live
  | .free _ ptr => p.live.filter fun e => e.1 ≠ ptr

/-- Requests of any size, and live pointers (or NULL) for `myfree`, on any processors. -/
def Permits (cpus : ℕ) (p : RecordProgram) : Call → Prop
  | .malloc s env => (Call.malloc s env).Allowed cpus p.heap
  | .free cpu ptr => cpu < cpus ∧ (ptr = 0 ∨ ptr ∈ p.live.map Prod.fst)

/-- A call that is allowed, and returns. -/
def Step (cpus : ℕ) (p : RecordProgram) (c : Call) (out : ℕ) (p' : RecordProgram) : Prop :=
  p.Permits cpus c ∧ perform cpus p.heap c = .ok (p'.heap, out) ∧ p'.live = p.liveAfter out c

/-- Before the first call. -/
structure Initial (p : RecordProgram) : Prop where
  heap : AdvancedMemory.Initial p.heap
  live : p.live = []

/-- **Bounded waste.** -/
structure BoundedWaste (cpus : ℕ) (p : RecordProgram) : Prop where
  /-- the block of a live pointer has at least the size of the request, and less than 28
  bytes more -/
  bounds : ∀ e ∈ p.live, ∃ b ∈ p.heap.created, e.1 = b + blockSize ∧
    e.2 ≤ get p.heap.mem .size b ∧ get p.heap.mem .size b < e.2 + 28
  /-- until the pointer is freed it stays live, and the block keeps its size -/
  constant : ∀ e ∈ p.live, ∀ b, e.1 = b + blockSize → ∀ tr p', Run (Step cpus) p tr p' →
    (∀ cpu, Call.free cpu e.1 ∉ tr.map Prod.fst) →
      e ∈ p'.live ∧ get p'.heap.mem .size b = get p.heap.mem .size b

/-- The invariant of the runs. -/
structure WasteInvariant (p : RecordProgram) : Prop where
  lists : AnyLists p.heap
  live : LiveBlocks p.heap p.live
  tight : ∀ e ∈ p.live, ∀ b, e.1 = b + blockSize → get p.heap.mem .size b < e.2 + 28

/-- Pointers that are live before and after a call, with blocks of the same sizes. -/
def Unchanged (p p' : RecordProgram) : Prop :=
  ∀ e ∈ p.live, e ∈ p'.live → ∀ b, e.1 = b + blockSize →
    get p'.heap.mem .size b = get p.heap.mem .size b

end RecordProgram

namespace RecordProgram

variable {p p' : RecordProgram} {ptr : ℕ}

theorem WasteInvariant.of_initial (hinit : p.Initial) : WasteInvariant p where
  lists := AnyLists.of_initial hinit.heap
  live := by
    rw [hinit.live]
    exact LiveBlocks.nil _
  tight e he := by
    rw [hinit.live] at he
    exact absurd he List.not_mem_nil

/-- **A call of `mymalloc`.** -/
theorem WasteInvariant.malloc (i : WasteInvariant p)
    (hallowed : (Call.malloc s env).Allowed cpus p.heap)
    (hcall : mymalloc p.heap cpus env s = .ok (p'.heap, q))
    (hlive : p'.live = p.liveAfter q (.malloc s env)) : WasteInvariant p' ∧ Unchanged p p' := by
  obtain ⟨heap', live'⟩ := p'
  obtain rfl : live' = p.liveAfter q (.malloc s env) := hlive
  obtain ⟨-, -, hheads, hfresh⟩ := hallowed
  have k₁ := i.lists.init hheads
  rw [liveAfter]
  rcases k₁.mymalloc_cases hfresh hcall with ⟨rfl, heq⟩ | ⟨b, rfl, o⟩
  · -- 0 is the address of no block
    have hkept := othersKept_initHeap p.heap cpus env.heads 0
    have hnull : 0 ∈ p.heap.created → get p.heap.mem .free 0 ≠ 0 := fun hmem =>
      absurd rfl (i.lists.ne_zero hmem)
    rw [if_pos rfl]
    obtain rfl : heap' = initHeap p.heap cpus env.heads := heq
    refine ⟨⟨k₁, i.live.of_others hkept hnull, fun e he c hc => ?_⟩, fun e he _ c hc => ?_⟩
    · rw [i.live.size_of_others hkept hnull he hc]
      exact i.tight e he c hc
    · exact i.live.size_of_others hkept hnull he hc
  · have hinit := othersKept_initHeap p.heap cpus env.heads b
    have hidle : b ∈ p.heap.created → get p.heap.mem .free b ≠ 0 := fun hmem hzero => by
      refine o.idle (hinit.created b hmem) ?_
      have hother := othersKept_initHeap p.heap cpus env.heads 0
      exact (hother.fields b hmem (i.lists.ne_zero hmem) .free (by decide)).trans hzero
    have hkept := hinit.trans o.kept
    rw [if_neg (show b + blockSize ≠ 0 from Nat.succ_ne_zero (b + 23))]
    refine ⟨⟨o.lists, i.live.hand hkept hidle o.mem o.taken o.large, fun e he c hc => ?_⟩,
      fun e he _ c hc => i.live.size_of_others hkept hidle he hc⟩
    rcases List.mem_cons.mp he with rfl | he
    · obtain rfl : b = c := Nat.add_right_cancel hc
      exact o.tight
    · rw [i.live.size_of_others hkept hidle he hc]
      exact i.tight e he c hc

/-- **A call of `myfree`.** -/
theorem WasteInvariant.free (i : WasteInvariant p) (hptr : ptr = 0 ∨ ptr ∈ p.live.map Prod.fst)
    (hcall : myfree p.heap cpu ptr = .ok p'.heap)
    (hlive : p'.live = p.liveAfter q (.free cpu ptr)) : WasteInvariant p' ∧ Unchanged p p' := by
  obtain ⟨heap', live'⟩ := p'
  obtain rfl : live' = p.liveAfter q (.free cpu ptr) := hlive
  dsimp only at hcall
  rcases hptr with rfl | hptr
  · rw [myfree_null] at hcall
    obtain rfl := Except.ok.inj hcall
    refine ⟨⟨i.lists, ⟨fun e he => i.live.block e (List.mem_filter.mp he).1,
      i.live.once.sublist (List.filter_sublist.map _)⟩, fun e he => ?_⟩, fun _ _ _ _ _ => rfl⟩
    exact i.tight e (List.mem_filter.mp he).1
  · obtain ⟨e, he, rfl⟩ := List.mem_map.mp hptr
    obtain ⟨b, hb, heb, hzero, -⟩ := i.live.block e he
    rw [heb, myfree_eq (i.lists.add_blockSize_lt hb) (i.lists.header hb), hzero] at hcall
    split at hcall
    · cases hcall
    · rw [if_neg (by decide)] at hcall
      obtain rfl := Except.ok.inj hcall
      have hkept : OthersKept p.heap { p.heap with mem := set p.heap.mem .free b 1 } b :=
        ⟨fun _ hc => hc, fun _ _ hcb _ _ => get_set_records 1 (Or.inl hcb)⟩
      have hsize : ∀ c, get (set p.heap.mem .free b 1) .size c = get p.heap.mem .size c :=
        fun c => get_set_records 1 (Or.inr (by decide))
      rw [liveAfter, heb]
      refine ⟨⟨i.lists.setFree 1, i.live.free hkept, fun d hd c hc => ?_⟩,
        fun _ _ _ c _ => hsize c⟩
      rw [hsize c]
      exact i.tight d (List.mem_filter.mp hd).1 c hc

/-- **One call** of any kind. -/
theorem WasteInvariant.step (i : WasteInvariant p) {c : Call} (hstep : Step cpus p c q p') :
    WasteInvariant p' ∧ Unchanged p p' := by
  obtain ⟨hpermits, hcall, hlive⟩ := hstep
  cases c with
  | malloc s env => exact i.malloc hpermits hcall hlive
  | free cpu ptr =>
    obtain ⟨h₁, hfree, hcall⟩ := bind_eq_ok.mp hcall
    rw [pure_eq_ok, Except.ok.injEq, Prod.mk.injEq] at hcall
    obtain rfl := hcall.1
    exact i.free hpermits.2 hfree hlive

/-- A pointer that is not freed stays live. -/
theorem Step.mem_live {c : Call} (hstep : Step cpus p c q p') {e : ℕ × ℕ} (he : e ∈ p.live)
    (hc : ∀ cpu, c ≠ .free cpu e.1) : e ∈ p'.live := by
  rw [hstep.2.2]
  cases c with
  | malloc s env =>
    rw [liveAfter]
    split
    · exact he
    · exact List.mem_cons_of_mem _ he
  | free cpu ptr =>
    refine List.mem_filter.mpr ⟨he, decide_eq_true fun heq => ?_⟩
    exact hc cpu (congrArg (Call.free cpu) heq.symm)

/-- **A whole run** in which the pointer is not freed. -/
theorem WasteInvariant.run {tr : List (Call × ℕ)} (hrun : Run (Step cpus) p tr p')
    (i : WasteInvariant p) {e : ℕ × ℕ} (he : e ∈ p.live) (hb : e.1 = b + blockSize)
    (htr : ∀ cpu, Call.free cpu e.1 ∉ tr.map Prod.fst) :
    e ∈ p'.live ∧ get p'.heap.mem .size b = get p.heap.mem .size b := by
  induction hrun with
  | nil => exact ⟨he, rfl⟩
  | cons hstep _ ih =>
    obtain ⟨i₁, hsame⟩ := i.step hstep
    have he₁ := hstep.mem_live he fun cpu hc => htr cpu (hc ▸ List.mem_cons_self)
    obtain ⟨he', hsize⟩ := ih i₁ he₁ fun cpu hc => htr cpu (List.mem_cons_of_mem _ hc)
    exact ⟨he', hsize.trans (hsame e he he₁ b hb)⟩

/-- **No block is much larger than its request**, in every run of one thread with requests of
any size on any processors. -/
theorem bounded_waste (cpus : ℕ) (p₀ p : RecordProgram) (hinit : p₀.Initial)
    (tr : List (Call × ℕ)) (hrun : Run (Step cpus) p₀ tr p) : BoundedWaste cpus p := by
  have i : WasteInvariant p := hrun.invariant (P := WasteInvariant)
    (fun _ _ _ _ i hs => (i.step hs).1) (WasteInvariant.of_initial hinit)
  refine ⟨fun e he => ?_, fun e he b hb tr p' hrun htr => i.run hrun he hb htr⟩
  obtain ⟨b, hb, heb, -, hlarge⟩ := i.live.block e he
  exact ⟨b, hb, heb, hlarge, i.tight e he b heb⟩

/-- A block of 100 bytes is freed and given out again for 90 bytes, on another processor
than the one that the pages of 4096 bytes come from. -/
theorem bounded_waste_unsplit : ∃ p : RecordProgram, p.live = [(16408, 4096), (8216, 90)] ∧
    get p.heap.mem .size 8192 = 100 ∧ BoundedWaste 2 p := by
  obtain ⟨p, hrun, hlive, hsize⟩ : ∃ p, Run (Step 2) ⟨⟨⟨fun _ _ => 0, []⟩, .null,
        fun _ => false, []⟩, []⟩
      [(.malloc 100 ⟨0, 0, 0, 0, some 4096, some 8192⟩, 8216), (.free 1 8216, 0),
        (.malloc 90 ⟨0, 1, 1, 1, none, none⟩, 8216),
        (.malloc 4096 ⟨1, 0, 1, 0, none, some 16384⟩, 16408)] p ∧
      p.live = [(16408, 4096), (8216, 90)] ∧ get p.heap.mem .size 8192 = 100 := by
    refine ⟨⟨_, _⟩, Run.cons (t := ⟨_, _⟩) ⟨⟨by decide, by decide, ?_, ?_⟩, rfl, rfl⟩
      (Run.cons (t := ⟨_, _⟩) ⟨⟨by decide, Or.inr (by decide)⟩, rfl, rfl⟩
      (Run.cons (t := ⟨_, _⟩) ⟨⟨by decide, by decide, ?_, ?_⟩, rfl, rfl⟩
      (Run.cons (t := ⟨_, _⟩) ⟨⟨by decide, by decide, ?_, ?_⟩, rfl, rfl⟩ (Run.nil _)))), rfl, rfl⟩
    · intro x _ hx
      rw [← Option.some.inj hx]
      decide
    · intro a ha
      rw [← Option.some.inj ha]
      decide
    · intro x _ hx
      cases hx
    · intro a ha
      cases ha
    · intro x _ hx
      cases hx
    · intro a ha
      rw [← Option.some.inj ha]
      decide
  exact ⟨p, hlive, hsize, bounded_waste 2 _ p ⟨⟨rfl, rfl, rfl, fun _ => rfl⟩, rfl⟩ _ hrun⟩

end RecordProgram

end AdvancedMemory
end SystemsProjects

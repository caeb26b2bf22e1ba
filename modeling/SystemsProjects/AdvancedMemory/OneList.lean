import SystemsProjects.AdvancedMemory.Records

/-!
# The list of one thread

A thread that stays on one processor has one list, and every block it has made is on
that list (`OneList`).  `mymalloc` hands out a block in one way only, as far as the rest of
the program can tell: the block was free or did not exist, it is taken afterwards
and large enough, and the other blocks keep their sizes and marks.  This is `HandedOut`, and
it holds of a block that is found, of one that is made, and still holds after a split
(`HandedOut.split`).
-/

namespace SystemsProjects
namespace AdvancedMemory

open Lib Allocator BlockStore

variable {h h' : Heap Records} {a b c cpu cpus s q : ℕ}

/-- **The list of the processor runs through all blocks.** -/
structure OneList (cpu : ℕ) (h : Heap Records) : Prop extends Spans h where
  list : ∃ bs, Visits 0 (get h.mem .next) (h.listHead cpu) bs ∧ ∀ b, b ∈ bs ↔ b ∈ h.created
  unused : h.blockHead = .null → h.created = []

namespace OneList

/-- The list, with what is needed to walk along it. -/
theorem chain (k : OneList cpu h) :
    ∃ bs, BlockChain h.mem (h.listHead cpu) bs ∧ ∀ b, b ∈ bs ↔ b ∈ h.created := by
  obtain ⟨bs, hvisits, hbs⟩ := k.list
  refine ⟨bs, ⟨hvisits, fun b hb => k.header ((hbs b).mp hb), fun b hb => ?_⟩, hbs⟩
  exact (k.lt ((hbs b).mp hb)).trans (by decide)

/-- Changes that keep the links and the sizes. -/
theorem of_fields (k : OneList cpu h) (hregions : regions h'.mem = regions h.mem)
    (hheads : h'.blockHead = h.blockHead) (hcreated : h'.created = h.created)
    (hkept : ∀ b ∈ h.created, get h'.mem .size b = get h.mem .size b ∧
      get h'.mem .next b = get h.mem .next b) : OneList cpu h' where
  toSpans := k.toSpans.of_fields hregions hcreated fun b hb => (hkept b hb).1
  list := by
    obtain ⟨bs, hvisits, hbs⟩ := k.list
    have hhead : h'.listHead cpu = h.listHead cpu := by
      rw [Heap.listHead, hheads]
      rfl
    rw [hhead, hcreated]
    exact ⟨bs, hvisits.congr fun b hb => (hkept b ((hbs b).mp hb)).2, hbs⟩
  unused hnull := by
    rw [hcreated]
    exact k.unused (hheads ▸ hnull)

/-- Marking a block. -/
theorem setFree (k : OneList cpu h) (v : ℕ) :
    OneList cpu { h with mem := set h.mem .free b v } :=
  k.of_fields (regions_set _ _ _ _) rfl rfl fun _ _ =>
    ⟨get_set_records v (Or.inr (by decide)), get_set_records v (Or.inr (by decide))⟩

/-- A link leads to a block or to NULL. -/
theorem next_lt (k : OneList cpu h) (hb : b ∈ h.created) : get h.mem .next b < 2 ^ 64 := by
  obtain ⟨bs, hvisits, hbs⟩ := k.list
  rcases hvisits.next_mem ((hbs b).mpr hb) with hnull | hmem
  · rw [hnull]
    decide
  · exact (k.lt ((hbs _).mp hmem)).trans (by decide)

/-- **A split** links the second half in behind the first one. -/
theorem split (k : OneList cpu h) (hb : b ∈ h.created)
    (hsize : s + blockSize + 4 ≤ get h.mem .size b) : OneList cpu (splitHeap h b s) where
  toSpans := k.toSpans.split hb hsize
  list := by
    obtain ⟨bs, hvisits, hbs⟩ := k.list
    obtain ⟨l, m, hlm⟩ := List.append_of_mem ((hbs b).mpr hb)
    have hne : additionalBlock b s ≠ 0 := by
      rw [k.additional_eq hb hsize]
      simp only [blockSize]
      omega
    have hlink : get (splitMem h.mem b s) .next (additionalBlock b s) = get h.mem .next b :=
      next_splitMem_new (k.additional_ne hb hsize hb) (k.next_lt hb)
    have hnodup := hvisits.nodup
    rw [hlm] at hvisits hnodup
    obtain ⟨-, hbm, hdisjoint⟩ := List.nodup_append.mp hnodup
    have hother : ∀ x ∈ bs, x ≠ b → get (splitMem h.mem b s) .next x = get h.mem .next x :=
      fun x hx hxb => k.get_split_other hb hsize ((hbs x).mp hx) hxb .next
    refine ⟨l ++ b :: additionalBlock b s :: m,
      hvisits.insert_after hne next_splitMem_old hlink (fun x hx => ?_) (fun x hx => ?_),
      fun x => ?_⟩
    · refine hother x ?_ (hdisjoint x hx b List.mem_cons_self)
      rw [hlm]
      exact List.mem_append_left _ hx
    · refine hother x ?_ fun hxb => (List.nodup_cons.mp hbm).1 (hxb ▸ hx)
      rw [hlm]
      exact List.mem_append_right _ (List.mem_cons_of_mem b hx)
    · have hx := hbs x
      rw [hlm] at hx
      show _ ↔ x ∈ h.created ++ [additionalBlock b s]
      simp only [List.mem_append, List.mem_cons, List.not_mem_nil, or_false] at hx ⊢
      rw [← hx, or_assoc, or_assoc, or_comm (a := x ∈ m)]
  unused hnull := by
    rw [k.unused hnull] at hb
    exact absurd hb List.not_mem_nil

/-- **A new block** goes behind the last block, or it is the first one. -/
theorem linked (k : OneList cpu h) (hfresh : Fresh h.mem (request s a).1) {last : ℕ}
    (hwalk : getLastBlock h cpu = .ok last) (hlink : Linked h cpu last s a h') :
    OneList cpu h' where
  toSpans := k.toSpans.linked hfresh hlink
  list := by
    obtain ⟨bs, hchain, hbs⟩ := k.chain
    have l' := k.toSpans.linked hfresh hlink
    have hmem : a ∈ h'.created := hlink.mem_created.mpr (Or.inr rfl)
    have hne := l'.ne_zero hmem
    have hend : get (extendedMem h.mem s a) .next a = 0 := next_withHeader (by decide)
    have hold : ∀ x ∈ bs, get (extendedMem h.mem s a) .next x = get h.mem .next x := by
      intro x hx
      refine get_withHeader (fun hax => ?_) .next
      rw [hax] at hfresh
      exact k.new_notMem hfresh ((hbs x).mp hx)
    refine ⟨bs ++ [a], ?_, fun x => ?_⟩
    · rcases getLastBlock_of_chain hchain hwalk with ⟨rfl, hnull, -⟩ | ⟨front, rfl⟩
      · cases hlink with
        | behind hlast => exact absurd hnull hlast
        | head _ hheads hcpu =>
          rw [listHead_set hheads hcpu rfl, Function.update_self]
          exact ⟨rfl, hne, hend⟩
      · have hlast : last ≠ 0 :=
          hchain.visits.ne_null (List.mem_append_right _ List.mem_cons_self)
        have hnodup := hchain.visits.nodup
        cases hlink with
        | head hnull => exact absurd hnull hlast
        | behind _ =>
          have hal : a ≠ last := by
            rintro rfl
            exact k.new_notMem hfresh
              ((hbs _).mp (List.mem_append_right _ List.mem_cons_self))
          refine hchain.visits.snoc hne
            (get_set_of_lt _ last ((l'.lt hmem).trans (by decide))) ?_ fun x hx => ?_
          · rw [get_set_records a (Or.inl hal), hend]
          · have hxl : x ≠ last :=
              (List.nodup_append.mp hnodup).2.2 x hx last List.mem_cons_self
            rw [get_set_records a (Or.inl hxl), hold x (List.mem_append_left _ hx)]
    · rw [hlink.mem_created, List.mem_append, List.mem_singleton, hbs x]
  unused hnull := by
    cases hlink with
    | head => cases hnull
    | behind hlast =>
      obtain ⟨bs, hchain, hbs⟩ := k.chain
      have hempty := k.unused hnull
      rcases getLastBlock_of_chain hchain hwalk with ⟨-, hzero, -⟩ | ⟨front, rfl⟩
      · exact absurd hzero hlast
      · have hmem := (hbs last).mp (List.mem_append_right _ List.mem_cons_self)
        rw [hempty] at hmem
        exact absurd hmem List.not_mem_nil

/-- The list heads are set up by the first call. -/
theorem init (k : OneList cpu h) {answer : Option ℕ}
    (hfresh : ∀ x, h.blockHead = .null → answer = some x → Fresh h.mem ⟨x, 8 * cpus⟩) :
    OneList cpu (initHeap h cpus answer) := by
  rw [initHeap]
  by_cases hnull : h.blockHead = .null
  · rw [if_pos hnull]
    obtain ⟨hmem, hheads, hcreated⟩ := initLocks_fields (allocateHeads h cpus answer) cpus
    have hempty := k.unused hnull
    suffices hset : OneList cpu (allocateHeads h cpus answer) by
      exact hset.of_fields (by rw [hmem]) hheads hcreated fun b _ => by rw [hmem]; exact ⟨rfl, rfl⟩
    have hnone : (allocateHeads h cpus answer).created = [] := by
      cases answer <;> exact hempty
    refine ⟨?_, ⟨[], listHead_allocateHeads answer cpu, fun b => ?_⟩, fun _ => hnone⟩
    · cases answer with
      | none => exact k.toSpans.of_fields rfl rfl fun _ _ => rfl
      | some x =>
        exact (k.toSpans.map (hfresh x hnull rfl)).of_fields rfl rfl fun _ _ => rfl
    · rw [hnone]
  · rw [if_neg hnull]
    exact k

end OneList

/-! ## A block is handed out -/

/-- **What the program sees of a call that hands out block `b` for `s` bytes.** -/
structure HandedOut (cpu : ℕ) (h h' : Heap Records) (b s : ℕ) : Prop where
  oneList : OneList cpu h'
  kept : OthersKept h h' b
  idle : b ∈ h.created → get h.mem .free b ≠ 0
  mem : b ∈ h'.created
  taken : get h'.mem .free b = 0
  large : s ≤ get h'.mem .size b
  locks : h'.locks = h.locks

namespace HandedOut

/-- A free block is taken. -/
theorem claim (k : OneList cpu h) (hb : b ∈ h.created) (hfits : Fits h.mem s b) :
    HandedOut cpu h (claim h b) b s where
  oneList := k.setFree 0
  kept := ⟨fun _ hc => hc, fun _ _ hcb _ _ => get_set_records 0 (Or.inl hcb)⟩
  idle _ := by
    rw [hfits.2]
    exact Nat.one_ne_zero
  mem := hb
  taken := get_set_of_lt _ b (by decide)
  large := hfits.1.trans (get_set_records 0 (Or.inr (by decide))).ge
  locks := rfl

/-- A new block is linked in. -/
theorem linked (k : OneList cpu h) (hfresh : Fresh h.mem (request s a).1) {last : ℕ}
    (hwalk : getLastBlock h cpu = .ok last) (hlink : Linked h cpu last s a h') :
    HandedOut cpu h h' a s where
  oneList := k.linked hfresh hwalk hlink
  kept := by
    refine ⟨fun c hc => hlink.mem_created.mpr (Or.inl hc), fun c hc hca f hf => ?_⟩
    exact hlink.get_records_old hca hf
  idle hmem := absurd hmem (k.new_notMem hfresh)
  mem := hlink.mem_created.mpr (Or.inr rfl)
  taken := (hlink.get_records (by decide)).trans (free_withHeader (by decide))
  large := by
    obtain ⟨-, -, hle, hlt⟩ := request_spec hfresh.stop
    rw [hlink.get_records (by decide), extendedMem, size_withHeader hlt]
    exact hle
  locks := hlink.locks_eq

/-- **A block that is handed out may be split**, before the program gets it. -/
theorem split (o : HandedOut cpu h h' b s)
    (hsize : s + blockSize + 4 ≤ get h'.mem .size b) :
    HandedOut cpu h (splitHeap h' b s) b s where
  oneList := o.oneList.split o.mem hsize
  kept := o.kept.trans ⟨fun _ hc => List.mem_append_left _ hc, fun _ hc hcb f _ =>
    o.oneList.get_split_other o.mem hsize hc hcb f⟩
  idle := o.idle
  mem := List.mem_append_left _ o.mem
  taken := (free_splitMem_old (o.oneList.additional_ne o.mem hsize o.mem)).trans o.taken
  large := (o.oneList.size_split_old o.mem hsize).ge
  locks := o.locks

/-- The request is one that the block has room for. -/
theorem add_le (o : HandedOut cpu h h' b s) (hsplittable : Splittable (get h'.mem .size b) s) :
    s + blockSize + 4 ≤ get h'.mem .size b := by
  refine add_le_of_splittable ?_ hsplittable
  have hbound := o.oneList.size_bound o.mem
  have hne := o.oneList.ne_zero o.mem
  have hlarge := o.large
  omega

/-- `splitBlock` on a block that is handed out. -/
theorem splitBlock_eq (o : HandedOut cpu h h' b s)
    (hsplittable : Splittable (get h'.mem .size b) s) :
    splitBlock h' cpu b s =
      if h'.locks cpu = true then .error .deadlock else .ok (splitHeap h' b s) := by
  have hsize := o.add_le hsplittable
  exact AdvancedMemory.splitBlock_eq (o.oneList.header o.mem)
    (o.oneList.header_additional o.mem hsize) (o.oneList.additional_ne o.mem hsize o.mem)

end HandedOut

/-! ## How `mymalloc` returns -/

/-- What is done with a free block that has been found. -/
def handOut (h : Heap Records) (b s : ℕ) : Heap Records :=
  if Splittable (get h.mem .size b) s then splitHeap (claim h b) b s else claim h b

namespace OneList

/-- The block that has been found is handed out. -/
theorem handOut (k : OneList cpu h) (hb : b ∈ h.created) (hfits : Fits h.mem s b) :
    HandedOut cpu h (handOut h b s) b s := by
  have o := HandedOut.claim k hb hfits
  have hsize : get (claim h b).mem .size b = get h.mem .size b :=
    get_set_records 0 (Or.inr (by decide))
  rw [AdvancedMemory.handOut]
  by_cases hsplittable : Splittable (get h.mem .size b) s
  · rw [if_pos hsplittable]
    exact o.split (o.add_le (hsize ▸ hsplittable))
  · rw [if_neg hsplittable]
    exact o

/-- **The search finds a block**: the rest of the call, whatever the system would answer. -/
theorem mymalloc_eq {h₀ : Heap Records} {heads answer : Option ℕ} (k : OneList cpu h)
    (hinit : initHeap h₀ cpus heads = h) (hlock : h.locks cpu = false)
    (hfind : findOptimalFreeBlock h cpu s = .ok (h, b)) (hb : b ∈ h.created)
    (hfits : Fits h.mem s b) :
    mymalloc h₀ cpus (pinned cpu heads answer) s =
      .ok (AdvancedMemory.handOut h b s, b + blockSize) := by
  have o := HandedOut.claim k hb hfits
  have hsize : get (claim h b).mem .size b = get h.mem .size b :=
    get_set_records 0 (Or.inr (by decide))
  have hfind₀ : findOptimalFreeBlock (initHeap h₀ cpus (pinned cpu heads answer).heads)
      (pinned cpu heads answer).find s = .ok (h, b) := by
    rw [← hfind, ← hinit]
    rfl
  rw [mymalloc_of_found hfind₀ (k.ne_zero hb) (k.header hb), AdvancedMemory.handOut,
    k.payload_eq hb]
  by_cases hsplittable : Splittable (get h.mem .size b) s
  · rw [if_pos hsplittable, if_pos hsplittable]
    show (splitBlock (claim h b) cpu b s >>= _) = _
    rw [o.splitBlock_eq (hsize.symm ▸ hsplittable), if_neg (by rw [o.locks, hlock]; decide)]
    rfl
  · rw [if_neg hsplittable, if_neg hsplittable]

/-- What the search returns: NULL, or a free block that is large enough. -/
theorem found_cases (k : OneList cpu h) (hfound : Found h cpu s b) :
    b = 0 ∨ (b ∈ h.created ∧ Fits h.mem s b) := by
  obtain ⟨bs, hchain, hbs⟩ := k.chain
  rw [hfound.eq_foldl hchain]
  exact (foldl_pick_cases h.mem s bs 0).imp_right fun hmem => ⟨(hbs _).mp hmem.1, hmem.2⟩

/-- What `getLastBlock` returns: NULL, or a block. -/
theorem last_mem (k : OneList cpu h) {last : ℕ} (hwalk : getLastBlock h cpu = .ok last) :
    last = 0 ∨ last ∈ h.created := by
  obtain ⟨bs, hchain, hbs⟩ := k.chain
  rcases getLastBlock_of_chain hchain hwalk with ⟨-, hnull, -⟩ | ⟨front, rfl⟩
  · exact Or.inl hnull
  · exact Or.inr ((hbs last).mp (List.mem_append_right _ List.mem_cons_self))

/-- `extendMemory` up to the split is refused, or it hands out a new block. -/
theorem extendSection_cases {answer : Option ℕ} {new : Option (ℕ × Bool)} (k : OneList cpu h)
    (hfresh : ∀ a, answer = some a → Fresh h.mem (request s a).1)
    (hcall : extendSection h cpu cpu s answer = .ok (h', new)) :
    (h' = h ∧ new = none) ∨
      ∃ a, HandedOut cpu h h' a s ∧
        new = some (a, decide (Splittable (get h'.mem .size a) s)) := by
  have hlast : ∀ a last, answer = some a → getLastBlock h cpu = .ok last →
      last = 0 ∨ (Header h.mem last ∧ Apart Records last a) := fun a last ha hwalk =>
    (k.last_mem hwalk).imp_right fun hmem =>
      ⟨k.header hmem, fun heq => k.new_notMem (hfresh a ha) (heq ▸ hmem)⟩
  rcases AdvancedMemory.extendSection_cases
      (fun a ha => ⟨header_new (hfresh a ha), (request_spec (hfresh a ha).stop).2.2.2⟩)
      hlast hcall with ⟨-, heq, hnew⟩ | ⟨a, last, hanswer, hwalk, hlink, hnew⟩
  · exact Or.inl ⟨heq, hnew⟩
  · have ha := hfresh a hanswer
    have hsize : get h'.mem .size a = (request s a).2 :=
      (hlink.get_records (by decide)).trans (size_withHeader (request_spec ha.stop).2.2.2)
    rw [← hsize] at hnew
    exact Or.inr ⟨a, HandedOut.linked k ha hwalk hlink, hnew⟩

/-- `extendMemory` is refused, or it hands out a new block. -/
theorem extendMemory_cases {heads answer : Option ℕ} (k : OneList cpu h)
    (hfresh : ∀ a, answer = some a → Fresh h.mem (request s a).1)
    (hcall : extendMemory h (pinned cpu heads answer) s = .ok (h', q)) :
    (q = 0 ∧ h' = h) ∨ ∃ b, q = b + blockSize ∧ HandedOut cpu h h' b s := by
  rcases extendMemory_eq_ok hcall with ⟨hsection, hq⟩ | ⟨h₁, a, toSplit, hsection, hq, htail⟩
  · rcases k.extendSection_cases hfresh hsection with ⟨heq, -⟩ | ⟨a, -, hnew⟩
    · exact Or.inl ⟨hq, heq⟩
    · cases hnew
  · rcases k.extendSection_cases hfresh hsection with ⟨-, hnew⟩ | ⟨a', o, hnew⟩
    · cases hnew
    · rw [Option.some.injEq, Prod.mk.injEq] at hnew
      obtain ⟨rfl, rfl⟩ := hnew
      rw [o.oneList.payload_eq o.mem] at hq
      refine Or.inr ⟨a, hq, ?_⟩
      by_cases hsplittable : Splittable (get h₁.mem .size a) s
      · rw [decide_eq_true hsplittable, if_pos rfl] at htail
        rw [show splitBlock h₁ (pinned cpu heads answer).split a s = _ from
          o.splitBlock_eq hsplittable] at htail
        split at htail
        · cases htail
        · rw [← Except.ok.inj htail]
          exact o.split (o.add_le hsplittable)
      · rw [decide_eq_false hsplittable, if_neg (by decide)] at htail
        rw [htail]
        exact o

/-- **`mymalloc` is refused, or it hands out a block.** -/
theorem mymalloc_cases {heads answer : Option ℕ} (k : OneList cpu (initHeap h cpus heads))
    (hfresh : ∀ a, answer = some a → Fresh (initHeap h cpus heads).mem (request s a).1)
    (hcall : mymalloc h cpus (pinned cpu heads answer) s = .ok (h', q)) :
    (initHeap h cpus heads).locks cpu = false ∧
      ((q = 0 ∧ h' = initHeap h cpus heads) ∨
        ∃ b, q = b + blockSize ∧ HandedOut cpu (initHeap h cpus heads) h' b s) := by
  obtain ⟨⟨h₁, b⟩, hfind, -⟩ := bind_eq_ok.mp hcall
  obtain ⟨rfl, hfound⟩ := findOptimalFreeBlock_cases hfind
  have hlock : (initHeap h cpus heads).locks cpu = false := locks_of_find hfind
  refine ⟨hlock, ?_⟩
  rcases k.found_cases hfound with rfl | ⟨hb, hfits⟩
  · rw [mymalloc_of_none hfind] at hcall
    exact k.extendMemory_cases hfresh hcall
  · rw [k.mymalloc_eq rfl hlock hfind hb hfits, Except.ok.injEq, Prod.mk.injEq] at hcall
    rw [← hcall.1]
    exact Or.inr ⟨b, hcall.2.symm, k.handOut hb hfits⟩

end OneList

end AdvancedMemory
end SystemsProjects

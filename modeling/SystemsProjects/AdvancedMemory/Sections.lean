import SystemsProjects.AdvancedMemory.Mymalloc

/-!
# What the sections under a lock do

Each section of the code waits for its mutex, changes the memory, and gives the
mutex back.  The equations of this module say so with the change as one
definition: `splitHeap` for `splitBlock`, `extendedMem` for the new block of
`extendSection`.  They hold whenever the headers that are touched can be accessed,
and no other module looks into the code of a section.
-/

namespace SystemsProjects
namespace AdvancedMemory

open Lib Allocator BlockStore

variable {M : Type} [BlockStore M] {h : Heap M} {cpu : ℕ}

omit [BlockStore M] in
/-- Taking a mutex and giving it back. -/
theorem unlock_lock (hfree : h.locks cpu = false) (h₁ : Heap M)
    (hlocks : h₁.locks = Function.update h.locks cpu true) :
    unlockMutex h₁ cpu = { h₁ with locks := h.locks } := by
  have hback : Function.update h₁.locks cpu false = h.locks := by
    rw [hlocks, Function.update_idem, ← hfree, Function.update_eq_self]
  rw [unlockMutex, hback]

/-- The search leaves everything as it was. -/
theorem findOptimalFreeBlock_eq (h : Heap M) (cpu s : ℕ) :
    findOptimalFreeBlock h cpu s =
      if h.locks cpu = true then .error .deadlock
      else (do
        let list ← h.head cpu
        let optimal ← searchList h.mem s list
        pure (h, optimal)) := by
  rw [findOptimalFreeBlock, lockMutex]
  by_cases hlock : h.locks cpu = true
  · rw [if_pos hlock, if_pos hlock]
    rfl
  · have hfree : h.locks cpu = false := by simpa using hlock
    rw [if_neg hlock, if_neg hlock, pure_eq_ok, ok_bind, unlock_lock hfree _ rfl]
    rfl

/-! ## Splitting -/

/-- The memory after a block has been cut off behind `s` bytes of block `b`. -/
def splitMem (m : M) (b s : ℕ) : M :=
  let c := additionalBlock b s
  set (set (withHeader m c (remainder (get m .size b) s) (get m .next b) 1) .size b s) .next b c

/-- The heap after the split. -/
def splitHeap (h : Heap M) (b s : ℕ) : Heap M :=
  { h with mem := splitMem h.mem b s, created := h.created ++ [additionalBlock b s] }

theorem splitBlock_eq {b s : ℕ} (hb : Header h.mem b)
    (hc : Header h.mem (additionalBlock b s)) (happart : Apart M (additionalBlock b s) b) :
    splitBlock h cpu b s =
      if h.locks cpu = true then .error .deadlock else .ok (splitHeap h b s) := by
  rw [splitBlock, lockMutex]
  by_cases hlock : h.locks cpu = true
  · rw [if_pos hlock, if_pos hlock]
    rfl
  · have hfree : h.locks cpu = false := by simpa using hlock
    rw [if_neg hlock, if_neg hlock, pure_eq_ok, ok_bind]
    dsimp only
    rw [load_eq _ hb, ok_bind, store_eq _ _ hc, ok_bind, load_eq _ (header_set _ _ _ hb), ok_bind,
      get_set_of_apart _ _ _ _ happart, store_eq _ _ (header_set _ _ _ hc), ok_bind,
      store_eq _ _ (header_set _ _ _ (header_set _ _ _ hc)), ok_bind, ← withHeader,
      store_eq _ _ (header_withHeader hb), ok_bind,
      store_eq _ _ (header_set _ _ _ (header_withHeader hb)), ok_bind,
      unlock_lock hfree _ rfl]
    rfl

section SplitFields

variable {m : M} {b s : ℕ} (happart : Apart M (additionalBlock b s) b)

include happart

theorem size_splitMem_new (hr : remainder (get m .size b) s < 2 ^ 64) :
    get (splitMem m b s) .size (additionalBlock b s) = remainder (get m .size b) s := by
  rw [splitMem, get_set_of_apart _ _ _ _ (apart_symm happart),
    get_set_of_apart _ _ _ _ (apart_symm happart), size_withHeader hr]

theorem next_splitMem_new (hn : get m .next b < 2 ^ 64) :
    get (splitMem m b s) .next (additionalBlock b s) = get m .next b := by
  rw [splitMem, get_set_of_apart _ _ _ _ (apart_symm happart),
    get_set_of_apart _ _ _ _ (apart_symm happart), next_withHeader hn]

theorem free_splitMem_old : get (splitMem m b s) .free b = get m .free b := by
  rw [splitMem, get_set_of_ne _ _ _ (by decide), get_set_of_ne _ _ _ (by decide),
    get_withHeader happart]

omit happart in
theorem size_splitMem_old (hs : s < 2 ^ 64) : get (splitMem m b s) .size b = s := by
  rw [splitMem, get_set_of_ne _ _ _ (by decide), get_set_of_lt _ b hs]

omit happart in
theorem next_splitMem_old :
    get (splitMem m b s) .next b = additionalBlock b s := by
  have hlt : additionalBlock b s < 2 ^ 64 := Nat.mod_lt _ (by decide)
  rw [splitMem, get_set_of_lt _ b hlt]

omit happart in
theorem get_splitMem {d : ℕ} (hbd : Apart M b d) (hcd : Apart M (additionalBlock b s) d)
    (f : Field) : get (splitMem m b s) f d = get m f d := by
  rw [splitMem, get_set_of_apart _ _ _ _ hbd, get_set_of_apart _ _ _ _ hbd, get_withHeader hcd]

omit happart in
theorem regions_splitMem : regions (splitMem m b s) = regions m := by
  rw [splitMem, regions_set, regions_set, regions_withHeader]

end SplitFields

/-! ## Extending -/

/-- The memory after a block for `s` bytes has been made at `a`. -/
def extendedMem (m : M) (s a : ℕ) : M :=
  withHeader (map m (request s a).1) a (request s a).2 0 0

/-- The heap with the new block, before it is linked in. -/
def extendedHeap (h : Heap M) (s a : ℕ) : Heap M :=
  { h with mem := extendedMem h.mem s a, created := h.created ++ [a] }

theorem getLastBlock_locks (h : Heap M) (locks : ℕ → Bool) (cpu : ℕ) :
    getLastBlock { h with locks := locks } cpu = getLastBlock h cpu := rfl

/-- Linking a block in does not look at the mutexes. -/
theorem linkBlock_locks (h : Heap M) (locks : ℕ → Bool) (cpu last a : ℕ) :
    linkBlock { h with locks := locks } cpu last a = (do
      let h' ← linkBlock h cpu last a
      pure { h' with locks := locks }) := by
  rw [linkBlock, linkBlock]
  by_cases hlast : last = 0
  · rw [if_pos hlast, if_pos hlast, Heap.setHead, Heap.setHead]
    cases h.blockHead with
    | null => rfl
    | failed => rfl
    | array lists =>
      dsimp only
      split <;> rfl
  · rw [if_neg hlast, if_neg hlast]
    dsimp only
    cases store h.mem .next last a with
    | error e => rfl
    | ok m => rfl

theorem locks_of_linkBlock {h h' : Heap M} {cpu last a : ℕ}
    (hlink : linkBlock h cpu last a = .ok h') : h'.locks = h.locks := by
  rw [linkBlock] at hlink
  split at hlink
  · rw [Heap.setHead] at hlink
    split at hlink
    · split at hlink
      · rw [← Except.ok.inj hlink]
      · cases hlink
    · cases hlink
    · cases hlink
  · obtain ⟨mem, -, hmem⟩ := bind_eq_ok.mp hlink
    rw [← Except.ok.inj hmem]

/-- What linking a block in may change. -/
theorem linkBlock_cases {h h' : Heap M} {cpu last a : ℕ} (hlast : last = 0 ∨ Header h.mem last)
    (hlink : linkBlock h cpu last a = .ok h') :
    (last = 0 ∧ ∃ lists, h.blockHead = .array lists ∧ cpu < lists.length ∧
      h' = { h with blockHead := .array (lists.set cpu a) }) ∨
    (last ≠ 0 ∧ h' = { h with mem := set h.mem .next last a }) := by
  rw [linkBlock] at hlink
  by_cases hnull : last = 0
  · rw [if_pos hnull, Heap.setHead] at hlink
    refine Or.inl ⟨hnull, ?_⟩
    cases hheads : h.blockHead with
    | null =>
      rw [hheads] at hlink
      cases hlink
    | failed =>
      rw [hheads] at hlink
      cases hlink
    | array lists =>
      rw [hheads] at hlink
      dsimp only at hlink
      by_cases hcpu : cpu < lists.length
      · rw [if_pos hcpu] at hlink
        exact ⟨lists, rfl, hcpu, (Except.ok.inj hlink).symm⟩
      · rw [if_neg hcpu] at hlink
        cases hlink
  · rw [if_neg hnull, store_eq _ _ (hlast.resolve_left hnull)] at hlink
    exact Or.inr ⟨hnull, (Except.ok.inj hlink).symm⟩

/-- **`extendMemory` up to the split.** -/
theorem extendSection_eq {lastCpu s : ℕ} {answer : Option ℕ}
    (hnew : ∀ a, answer = some a → Header (map h.mem (request s a).1) a) :
    extendSection h cpu lastCpu s answer =
      if h.locks cpu = true then .error .deadlock
      else (do
        let last ← getLastBlock h lastCpu
        match answer with
        | none => pure (h, none)
        | some a => do
          let h' ← linkBlock (extendedHeap h s a) cpu last a
          let newSize ← load h'.mem .size a
          pure (h', some (a, decide (Splittable newSize s)))) := by
  rw [extendSection, lockMutex]
  by_cases hlock : h.locks cpu = true
  · rw [if_pos hlock, if_pos hlock]
    rfl
  · have hfree : h.locks cpu = false := by simpa using hlock
    rw [if_neg hlock, if_neg hlock, pure_eq_ok, ok_bind, getLastBlock_locks]
    cases getLastBlock h lastCpu with
    | error e => rfl
    | ok last =>
      rw [ok_bind, ok_bind]
      cases answer with
      | none =>
        dsimp only
        rw [unlock_lock hfree _ rfl]
      | some a =>
        have ha := hnew a rfl
        dsimp only
        rw [store_eq _ _ ha, ok_bind, store_eq _ _ (header_set _ _ _ ha), ok_bind,
          store_eq _ _ (header_set _ _ _ (header_set _ _ _ ha)), ok_bind, ← withHeader,
          ← extendedMem, show linkBlock ⟨extendedMem h.mem s a, h.blockHead,
              Function.update h.locks cpu true, h.created ++ [a]⟩ cpu last a = _ from
            linkBlock_locks (extendedHeap h s a) (Function.update h.locks cpu true) cpu last a]
        cases hlink : linkBlock (extendedHeap h s a) cpu last a with
        | error e => rfl
        | ok h' =>
          have hlocks : h'.locks = h.locks := (locks_of_linkBlock hlink).trans rfl
          rw [ok_bind, ok_bind, pure_eq_ok, ok_bind]
          dsimp only
          rw [unlock_lock hfree _ rfl, ← hlocks]

/-! ## Freeing -/

theorem myfree_null (h : Heap M) (cpu : ℕ) : myfree h cpu 0 = .ok h := by
  rw [myfree, if_pos rfl]
  rfl

/-- **`myfree` of the payload of a block**: a free block keeps the mutex. -/
theorem myfree_eq {b : ℕ} (hb : b + blockSize < 2 ^ 64) (hheader : Header h.mem b) :
    myfree h cpu (b + blockSize) =
      if h.locks cpu = true then .error .deadlock
      else if get h.mem .free b = 1 then
        .ok { h with locks := Function.update h.locks cpu true }
      else .ok { h with mem := set h.mem .free b 1 } := by
  have hne : b + blockSize ≠ 0 := Nat.succ_ne_zero (b + 23)
  rw [myfree, if_neg hne, lockMutex]
  by_cases hlock : h.locks cpu = true
  · rw [if_pos hlock, if_pos hlock]
    rfl
  · have hfree : h.locks cpu = false := by simpa using hlock
    rw [if_neg hlock, if_neg hlock, pure_eq_ok, ok_bind]
    dsimp only
    rw [headerOf_add hb, load_eq _ hheader, ok_bind]
    by_cases h1 : get h.mem .free b = 1
    · rw [if_pos h1, if_pos h1]
      rfl
    · rw [if_neg h1, if_neg h1, store_eq _ _ hheader, ok_bind, unlock_lock hfree _ rfl]
      rfl

/-! ## The first call -/

omit [BlockStore M] in
theorem initLocks_fields (h : Heap M) (cpus : ℕ) :
    (initLocks h cpus).mem = h.mem ∧ (initLocks h cpus).blockHead = h.blockHead ∧
      (initLocks h cpus).created = h.created := by
  rw [initLocks]
  induction List.range cpus generalizing h with
  | nil => exact ⟨rfl, rfl, rfl⟩
  | cons x xs ih =>
    rw [List.foldl_cons]
    exact ih (unlockMutex h x)

omit [BlockStore M] in
/-- Free mutexes stay free. -/
theorem initLocks_locks (h : Heap M) (cpus : ℕ) (hfree : ∀ x, h.locks x = false) :
    ∀ x, (initLocks h cpus).locks x = false := by
  rw [initLocks]
  induction List.range cpus generalizing h with
  | nil => exact hfree
  | cons y ys ih =>
    rw [List.foldl_cons]
    refine ih (unlockMutex h y) fun x => ?_
    show Function.update h.locks y false x = false
    by_cases hxy : x = y
    · rw [hxy, Function.update_self]
    · rw [Function.update_of_ne hxy, hfree]

/-- The first call changes no field of a block, and may map one more region. -/
theorem initHeap_fields (h : Heap M) (cpus : ℕ) (answer : Option ℕ) :
    (initHeap h cpus answer).created = h.created ∧
      (∀ f b, get (initHeap h cpus answer).mem f b = get h.mem f b) ∧
      ∀ r ∈ regions h.mem, r ∈ regions (initHeap h cpus answer).mem := by
  rw [initHeap]
  split
  · obtain ⟨hmem, -, hcreated⟩ := initLocks_fields (allocateHeads h cpus answer) cpus
    rw [hmem, hcreated]
    cases answer with
    | none => exact ⟨rfl, fun _ _ => rfl, fun _ hr => hr⟩
    | some a =>
      refine ⟨rfl, fun f b => get_map _ _ _ _, fun r hr => ?_⟩
      show r ∈ regions (map h.mem ⟨a, 8 * cpus⟩)
      rw [regions_map]
      exact List.mem_cons_of_mem _ hr
  · exact ⟨rfl, fun _ _ => rfl, fun _ hr => hr⟩

/-- A later call finds the heap set up; the first one makes empty lists or fails to. -/
theorem initHeap_cases (h : Heap M) (cpus : ℕ) (answer : Option ℕ) :
    (h.blockHead ≠ .null ∧ initHeap h cpus answer = h) ∨
      (h.blockHead = .null ∧ ((initHeap h cpus answer).blockHead = .failed ∨
        (initHeap h cpus answer).blockHead = .array (List.replicate cpus 0))) := by
  by_cases hnull : h.blockHead = .null
  · refine Or.inr ⟨hnull, ?_⟩
    rw [initHeap, if_pos hnull, (initLocks_fields (allocateHeads h cpus answer) cpus).2.1]
    cases answer with
    | none => exact Or.inl rfl
    | some a => exact Or.inr rfl
  · exact Or.inl ⟨hnull, if_neg hnull⟩

theorem initHeap_ne_null (h : Heap M) (cpus : ℕ) (answer : Option ℕ) :
    (initHeap h cpus answer).blockHead ≠ .null := by
  rcases initHeap_cases h cpus answer with ⟨hne, heq⟩ | ⟨-, hfailed | harray⟩
  · rw [heq]
    exact hne
  · rw [hfailed]
    exact Heads.noConfusion
  · rw [harray]
    exact Heads.noConfusion

/-- Setting the heap up again changes nothing. -/
theorem initHeap_idem (h : Heap M) (cpus : ℕ) (answer answer' : Option ℕ) :
    initHeap (initHeap h cpus answer) cpus answer' = initHeap h cpus answer :=
  if_neg (initHeap_ne_null h cpus answer)

end AdvancedMemory
end SystemsProjects

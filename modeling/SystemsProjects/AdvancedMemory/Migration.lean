import SystemsProjects.AdvancedMemory.CpuLists

/-!
# One thread on changing processors

The calls of a thread that runs alone.  `MallocOutcome` lists the five ways in which
`mymalloc` returns, and every invariant of such a thread is a case analysis of it.

The lists stay in order under two conditions on the state before a call.
`Call.KeepsLists` is about migration: when the list of `getLastBlock` is empty, so is
the list that the new block is stored into.  `Call.HasRoom` is about blocks from `mmap`,
whose recorded size is 24 bytes more than their region has left: the header that a
split cuts off has to lie in the region.
-/

namespace SystemsProjects
namespace AdvancedMemory

open Lib Allocator BlockStore

variable {M : Type} [BlockStore M] {h h' : Heap M} {cpus s q : ℕ} {env : Environment}

/-! ## Calls -/

/-- A call of the thread, with what the functions learn from the system. -/
inductive Call where
  | malloc (s : ℕ) (env : Environment)
  | free (cpu ptr : ℕ)
  deriving DecidableEq, Repr

/-- The processors are those of the machine, which has no more of them than there are
mutexes, the operating system answers with new regions, and a pointer that is freed is
NULL or the payload of a block, live or not. -/
def Call.Allowed (cpus : ℕ) (h : Heap M) : Call → Prop
  | .malloc s env => (s < 2 ^ 64 ∧ cpus ≤ lockCount) ∧
      (env.find < cpus ∧ env.extend < cpus ∧ env.last < cpus ∧ env.split < cpus) ∧
      (∀ x, h.blockHead = .null → env.heads = some x → Fresh h.mem ⟨x, 8 * cpus⟩) ∧
      ∀ a, env.answer = some a → Fresh (initHeap h cpus env.heads).mem (request s a).1
  | .free cpu ptr => cpu < cpus ∧ (ptr = 0 ∨ ∃ b ∈ h.created, ptr = b + blockSize)

/-- The call, with the pointer that is returned. -/
def perform (cpus : ℕ) (h : Heap M) : Call → Except Stop (Heap M × ℕ)
  | .malloc s env => mymalloc h cpus env s
  | .free cpu ptr => do
      let h ← myfree h cpu ptr
      pure (h, 0)

/-- A call that is allowed, and returns. -/
def Step (cpus : ℕ) (h : Heap M) (c : Call) (out : ℕ) (h' : Heap M) : Prop :=
  c.Allowed cpus h ∧ perform cpus h c = .ok (h', out)

/-- Before the first call. -/
structure Initial (h : Heap M) : Prop where
  blockHead : h.blockHead = .null
  created : h.created = []
  regions : regions h.mem = []
  locks : ∀ cpu, h.locks cpu = false

/-! ## The conditions -/

/-- No free block of the list that is searched is large enough. -/
def NoneFits (h : Heap M) (env : Environment) (s : ℕ) : Prop :=
  ∀ b, OnList h env.find b → ¬ Fits h.mem s b

/-- The block of size `z` in `r` is not split behind `s` bytes, or the region has room
for the header of the second half. -/
def RoomIn (r : Extent) (b z s : ℕ) : Prop :=
  Splittable z s → Holds r (additionalBlock b s)

/-- The block that a request splits has room for another header. -/
def SplitsInside (h : Heap M) (env : Environment) (s : ℕ) : Prop :=
  (∀ b, Found h env.find s b → b ≠ 0 →
    ∀ r ∈ regions h.mem, Holds r b → RoomIn r b (get h.mem .size b) s) ∧
  ∀ a, env.answer = some a → NoneFits h env s → RoomIn (request s a).1 a (request s a).2 s

/-- A new block without predecessor gets an empty list. -/
def KeepsLists (h : Heap M) (env : Environment) (s : ℕ) : Prop :=
  NoneFits h env s → env.answer ≠ none → h.head env.last = .ok 0 → h.head env.extend = .ok 0

/-- **Splits stay inside**, in the heap that the call begins with. -/
def Call.HasRoom (cpus : ℕ) (h : Heap M) : Call → Prop
  | .malloc s env => SplitsInside (initHeap h cpus env.heads) env s
  | .free _ _ => True

/-- **No list is overwritten.** -/
def Call.Keeps (cpus : ℕ) (h : Heap M) : Call → Prop
  | .malloc s env => KeepsLists (initHeap h cpus env.heads) env s
  | .free _ _ => True

/-! ## How `mymalloc` returns -/

/-- The block is taken. -/
def claim (h : Heap M) (b : ℕ) : Heap M := { h with mem := set h.mem .free b 0 }

/-- The search has found a block. -/
theorem mymalloc_of_found {h₀ : Heap M} {b : ℕ}
    (hfind : findOptimalFreeBlock (initHeap h cpus env.heads) env.find s = .ok (h₀, b))
    (hb : b ≠ 0) (hheader : Header h₀.mem b) :
    mymalloc h cpus env s =
      if Splittable (get h₀.mem .size b) s then (do
        let h₁ ← splitBlock (claim h₀ b) env.split b s
        pure (h₁, payload b))
      else .ok (claim h₀ b, payload b) := by
  have hsize : get (set h₀.mem .free b 0) .size b = get h₀.mem .size b :=
    get_set_of_ne _ _ _ (by decide)
  rw [mymalloc, hfind, ok_bind]
  dsimp only
  rw [if_pos hb, store_eq _ _ hheader, ok_bind, load_eq _ (header_set _ _ _ hheader), ok_bind,
    hsize]
  rfl

/-- The search has found nothing. -/
theorem mymalloc_of_none {h₀ : Heap M}
    (hfind : findOptimalFreeBlock (initHeap h cpus env.heads) env.find s = .ok (h₀, 0)) :
    mymalloc h cpus env s = extendMemory h₀ env s := by
  rw [mymalloc, hfind, ok_bind]
  exact if_neg (not_not.mpr rfl)

/-- **`extendMemory` is refused, or it makes a block, or it makes one and splits it.** -/
theorem extendMemory_eq_ok (hcall : extendMemory h env s = .ok (h', q)) :
    (extendSection h env.extend env.last s env.answer = .ok (h', none) ∧ q = 0) ∨
      ∃ h₁ a toSplit,
        extendSection h env.extend env.last s env.answer = .ok (h₁, some (a, toSplit)) ∧
          q = payload a ∧
          if toSplit then splitBlock h₁ env.split a s = .ok h' else h' = h₁ := by
  rw [extendMemory] at hcall
  obtain ⟨⟨h₁, new⟩, hextend, hcall⟩ := bind_eq_ok.mp hcall
  rw [hextend]
  cases new with
  | none =>
    dsimp only at hcall
    rw [pure_eq_ok, Except.ok.injEq, Prod.mk.injEq] at hcall
    rw [hcall.1]
    exact Or.inl ⟨rfl, hcall.2.symm⟩
  | some new =>
    obtain ⟨a, toSplit⟩ := new
    refine Or.inr ⟨h₁, a, toSplit, rfl, ?_⟩
    dsimp only at hcall
    cases toSplit with
    | false =>
      rw [if_neg (by decide), pure_eq_ok, Except.ok.injEq, Prod.mk.injEq] at hcall
      exact ⟨hcall.2.symm, hcall.1.symm⟩
    | true =>
      rw [if_pos rfl] at hcall
      obtain ⟨h₂, hsplit, hcall⟩ := bind_eq_ok.mp hcall
      obtain ⟨h₃, hlock, hcall⟩ := bind_eq_ok.mp hcall
      rw [lockMutex] at hlock
      by_cases htaken : h₂.locks env.extend = true
      · rw [if_pos htaken] at hlock
        cases hlock
      · rw [if_neg htaken] at hlock
        obtain rfl := Except.ok.inj hlock
        rw [unlock_lock (by simpa using htaken) _ rfl, pure_eq_ok, Except.ok.injEq,
          Prod.mk.injEq] at hcall
        rw [if_pos rfl, ← hcall.1]
        exact ⟨hcall.2.symm, hsplit⟩

/-- **The ways in which `mymalloc` returns** from an initialized heap, with the
heap after it and the pointer. -/
inductive MallocOutcome (h : Heap M) (env : Environment) (s : ℕ) : Heap M → ℕ → Prop where
  | reuse {b : ℕ} (hlist : OnList h env.find b) (hfits : Fits h.mem s b)
      (hwhole : ¬ Splittable (get h.mem .size b) s) :
      MallocOutcome h env s (claim h b) (payload b)
  | reuseSplit {b : ℕ} (hlist : OnList h env.find b) (hfits : Fits h.mem s b)
      (hsplit : CanSplit (claim h b) b s) :
      MallocOutcome h env s (splitHeap (claim h b) b s) (payload b)
  | refused (hnone : NoneFits h env s) (hanswer : env.answer = none) :
      MallocOutcome h env s h 0
  | extend {a last : ℕ} {h' : Heap M} (hnone : NoneFits h env s)
      (hanswer : env.answer = some a) (hwalk : getLastBlock h env.last = .ok last)
      (hlink : Linked h env.extend last s a h')
      (hwhole : ¬ Splittable (request s a).2 s) :
      MallocOutcome h env s h' (payload a)
  | extendSplit {a last : ℕ} {h' : Heap M} (hnone : NoneFits h env s)
      (hanswer : env.answer = some a) (hwalk : getLastBlock h env.last = .ok last)
      (hlink : Linked h env.extend last s a h') (hsplit : CanSplit h' a s) :
      MallocOutcome h env s (splitHeap h' a s) (payload a)

/-- A free block that is found can be split once it is taken. -/
theorem Layout.canSplit_claim (l : Layout h) {b : ℕ} (hb : b ∈ h.created) (hfits : Fits h.mem s b)
    (hsplit : Splittable (get h.mem .size b) s)
    (hroom : ∀ r ∈ regions h.mem, Holds r b → Holds r (additionalBlock b s)) :
    CanSplit (claim h b) b s := by
  refine ⟨hb, ?_, fun r hr hbr => ?_⟩
  · rw [claim, get_set_of_ne _ _ _ (by decide)]
    refine add_le_of_splittable ?_ hsplit
    have hbound := l.size_bound hb
    have hfit := hfits.1
    have hpos := l.ne_zero hb
    omega
  · rw [claim, regions_set] at hr
    exact hroom r hr hbr

/-- A new block can be split. -/
theorem Linked.canSplit {cpu a last : ℕ} (k : Linked h cpu last s a h') (l : Layout h)
    (hfresh : Fresh h.mem (request s a).1) (hlast : last = 0 ∨ last ∈ h.created)
    (hsplit : Splittable (request s a).2 s)
    (hroom : Holds (request s a).1 (additionalBlock a s)) : CanSplit h' a s := by
  obtain ⟨hin, hstop, hle, -⟩ := request_spec hfresh.stop
  refine ⟨k.mem_created.mpr (Or.inr rfl), ?_, fun r hr har => ?_⟩
  · rw [k.size_new l hfresh hlast]
    refine add_le_of_splittable ?_ hsplit
    have hbound := hfresh.stop
    have ha₀ : 0 < a := Nat.lt_of_lt_of_le hfresh.pos hin.1
    omega
  · have hregion : r = (request s a).1 :=
      (k.layout l hfresh hlast).region_unique hr
        (by rw [k.regions_eq]; exact List.mem_cons_self) har hin
    rw [hregion]
    exact hroom

/-- **What a call needs to know of the lists**: they do not leave the blocks, and a search ends
with a block that fits, or with nothing if no block of the list does. -/
structure Walks (h : Heap M) : Prop extends Layout h where
  listed : ∀ {cpu b}, OnList h cpu b → b ∈ h.created
  found : ∀ {cpu s b}, Found h cpu s b → (b = 0 ∧ ∀ x, OnList h cpu x → ¬ Fits h.mem s x) ∨
    (b ≠ 0 ∧ OnList h cpu b ∧ Fits h.mem s b)
  last : ∀ {cpu last}, getLastBlock h cpu = .ok last → last = 0 ∨ last ∈ h.created

namespace Walks

/-- `extendMemory` is one of the last three ways. -/
theorem extendMemory_cases (o : Walks h) (hnone : NoneFits h env s)
    (hfresh : ∀ a, env.answer = some a → Fresh h.mem (request s a).1)
    (hroom : SplitsInside h env s)
    (hcall : extendMemory h env s = .ok (h', q)) : MallocOutcome h env s h' q := by
  have hwalks : ∀ last, getLastBlock h env.last = .ok last → last = 0 ∨ last ∈ h.created :=
    fun last hwalk => o.last hwalk
  rcases extendMemory_eq_ok hcall with ⟨hextend, rfl⟩ | ⟨h₁, a, toSplit, hextend, rfl, htail⟩
  · rcases o.toLayout.extendSection_cases hfresh hwalks hextend with
      ⟨hanswer, rfl, -⟩ | ⟨a, last, -, -, -, hnew⟩
    · exact MallocOutcome.refused hnone hanswer
    · cases hnew
  · rcases o.toLayout.extendSection_cases hfresh hwalks hextend with
      ⟨-, -, hnew⟩ | ⟨a', last, hanswer, hwalk, k, hnew⟩
    · cases hnew
    · rw [Option.some.injEq, Prod.mk.injEq] at hnew
      obtain ⟨rfl, rfl⟩ := hnew
      have ha := hfresh a hanswer
      have hlast := o.last hwalk
      by_cases hsplittable : Splittable (request s a).2 s
      · have p := k.canSplit o.toLayout ha hlast hsplittable
          (hroom.2 a hanswer hnone hsplittable)
        rw [decide_eq_true hsplittable, if_pos rfl] at htail
        obtain rfl := p.eq_splitHeap (k.layout o.toLayout ha hlast) htail
        exact MallocOutcome.extendSplit hnone hanswer hwalk k p
      · rw [decide_eq_false hsplittable, if_neg (by decide)] at htail
        rw [htail]
        exact MallocOutcome.extend hnone hanswer hwalk k hsplittable

/-- **`mymalloc` returns in one of five ways.** -/
theorem mymalloc_cases (o : Walks (initHeap h cpus env.heads))
    (hfresh : ∀ a, env.answer = some a →
      Fresh (initHeap h cpus env.heads).mem (request s a).1)
    (hroom : SplitsInside (initHeap h cpus env.heads) env s)
    (hcall : mymalloc h cpus env s = .ok (h', q)) :
    MallocOutcome (initHeap h cpus env.heads) env s h' q := by
  obtain ⟨⟨h₁, b⟩, hfind, -⟩ := bind_eq_ok.mp hcall
  obtain ⟨rfl, hfound⟩ := findOptimalFreeBlock_cases hfind
  rcases o.found hfound with ⟨rfl, hnone⟩ | ⟨hb, hlist, hfits⟩
  · rw [mymalloc_of_none hfind] at hcall
    exact o.extendMemory_cases hnone hfresh hroom hcall
  · have hmem := o.listed hlist
    rw [mymalloc_of_found hfind hb (o.header hmem)] at hcall
    by_cases hsplittable : Splittable (get (initHeap h cpus env.heads).mem .size b) s
    · have p := o.toLayout.canSplit_claim hmem hfits hsplittable
        fun r hr hbr => hroom.1 b hfound hb r hr hbr hsplittable
      rw [if_pos hsplittable] at hcall
      obtain ⟨h₂, hsplit, hcall⟩ := bind_eq_ok.mp hcall
      obtain rfl := p.eq_splitHeap (o.toLayout.set_field hmem (by decide) 0) hsplit
      rw [pure_eq_ok, Except.ok.injEq, Prod.mk.injEq] at hcall
      rw [← hcall.1, ← hcall.2]
      exact MallocOutcome.reuseSplit hlist hfits p
    · rw [if_neg hsplittable, Except.ok.injEq, Prod.mk.injEq] at hcall
      rw [← hcall.1, ← hcall.2]
      exact MallocOutcome.reuse hlist hfits hsplittable

end Walks

namespace Ordered

theorem take (o : Ordered h) {b : ℕ} (hb : b ∈ h.created) : Ordered (claim h b) :=
  o.setFree hb 0

theorem walks (o : Ordered h) : Walks h where
  toLayout := o.toLayout
  listed hb := o.mem_of_onList hb
  found hfound := o.found_cases hfound
  last hwalk := o.last_mem hwalk

/-- `mymalloc` keeps the order. -/
theorem malloc (o : Ordered h) (hkeep : KeepsLists h env s)
    (hfresh : ∀ a, env.answer = some a → Fresh h.mem (request s a).1)
    (houtcome : MallocOutcome h env s h' q) : Ordered h' := by
  cases houtcome with
  | reuse hlist => exact o.take (o.mem_of_onList hlist)
  | reuseSplit hlist _ hsplit => exact (o.take (o.mem_of_onList hlist)).split hsplit
  | refused => exact o
  | extend hnone hanswer hwalk hlink =>
    refine o.linked (hfresh _ hanswer) hwalk (hkeep hnone ?_) hlink
    rw [hanswer]
    exact Option.some_ne_none _
  | extendSplit hnone hanswer hwalk hlink hsplit =>
    refine (o.linked (hfresh _ hanswer) hwalk (hkeep hnone ?_) hlink).split hsplit
    rw [hanswer]
    exact Option.some_ne_none _

end Ordered

/-! ## Runs -/

theorem ordered_of_initial (hinit : Initial h) : Ordered h where
  apart := by
    rw [hinit.regions]
    exact List.Pairwise.nil
  bound r hr := by
    rw [hinit.regions] at hr
    exact absurd hr List.not_mem_nil
  home b hb := by
    rw [hinit.created] at hb
    exact absurd hb List.not_mem_nil
  tiles r hr := by
    rw [hinit.regions] at hr
    exact absurd hr List.not_mem_nil
  lists := by
    refine ⟨fun _ => [], ⟨fun cpu => ?_, fun hx => absurd hx List.not_mem_nil⟩, fun b => ?_⟩
    · rw [Heap.listHead, hinit.blockHead]
      rfl
    · rw [hinit.created]
      constructor
      · exact fun hb => absurd hb List.not_mem_nil
      · rintro ⟨cpu, hb⟩
        exact absurd hb List.not_mem_nil

/-- **One call keeps the order.** -/
theorem Ordered.step (o : Ordered h) {c : Call} (hroom : c.HasRoom cpus h)
    (hkeep : c.Keeps cpus h) (hstep : Step cpus h c q h') : Ordered h' := by
  obtain ⟨hallowed, hcall⟩ := hstep
  cases c with
  | malloc s env =>
    obtain ⟨-, -, hheads, hfresh⟩ := hallowed
    have o₁ := o.init hheads
    exact o₁.malloc hkeep hfresh (o₁.walks.mymalloc_cases hfresh hroom hcall)
  | free cpu ptr =>
    obtain ⟨h₁, hfree, hcall⟩ := bind_eq_ok.mp hcall
    rw [pure_eq_ok, Except.ok.injEq, Prod.mk.injEq] at hcall
    rw [← hcall.1]
    rcases o.toLayout.myfree_cases hallowed.2 hfree with ⟨hmem, hheads, hcreated⟩ | ⟨b, hb, -, rfl⟩
    · exact o.of_eq hmem hheads hcreated
    · exact o.setFree hb 1

/-- **No block is lost, under the conditions.**  In every run of one thread, on any
processors, whose calls keep the lists and split inside the regions, every block
that was ever made is reached from exactly one entry of `block_head`. -/
theorem each_once_of_run (cpus : ℕ) (h₀ h : Heap Memory) (hinit : Initial h₀)
    (tr : List (Call × ℕ))
    (hrun : Run (Guarded (fun h c => c.HasRoom cpus h ∧ c.Keeps cpus h) (Step cpus)) h₀ tr h) :
    EachOnce h := by
  have o : Ordered h := hrun.invariant (P := Ordered)
    (fun _ _ _ _ o hs => o.step hs.1.1 hs.1.2 hs.2) (ordered_of_initial hinit)
  exact o.eachOnce

/-! ## Two processors -/

/-- The heap before the first call, in a memory of zeros. -/
def emptyHeap : Heap Memory := ⟨⟨fun _ => 0, []⟩, .null, fun _ => false, []⟩

theorem initial_emptyHeap : Initial emptyHeap := ⟨rfl, rfl, rfl, fun _ => rfl⟩

theorem Found.unique {b c cpu : ℕ} (hb : Found h cpu s b) (hc : Found h cpu s c) : b = c := by
  obtain ⟨list, hhead, hsearch⟩ := hb
  obtain ⟨list', hhead', hsearch'⟩ := hc
  rw [hhead] at hhead'
  rw [← Except.ok.inj hhead', hsearch] at hsearch'
  exact Except.ok.inj hsearch'

/-- A call that stays on one processor. -/
def pinned (cpu : ℕ) (heads answer : Option ℕ) : Environment :=
  ⟨cpu, cpu, cpu, cpu, heads, answer⟩

/-- The thread gets a block on the first processor, moves to the second one and gets
a block that goes behind the first one and is split, frees the first block there, and
gets it again on the first processor. -/
def movingTrace : List (Call × ℕ) :=
  [(.malloc 8 (pinned 0 (some 4096) (some 8192)), 8216),
   (.malloc 5000 ⟨1, 1, 0, 1, none, some 12288⟩, 12312),
   (.free 1 8216, 0), (.malloc 4 (pinned 0 none none), 8216)]

theorem run_movingTrace : ∃ h,
    Run (Guarded (fun h c => c.HasRoom 2 h ∧ c.Keeps 2 h) (Step 2)) emptyHeap movingTrace h ∧
      h.created = [8192, 12288, 17312] ∧ h.blockHead = .array [8192, 0] := by
  refine ⟨_, Run.cons ⟨⟨⟨fun b hb hne => ?_, fun a ha _ => ?_⟩, fun _ _ _ => rfl⟩, ?_, rfl⟩
    (Run.cons ⟨⟨⟨fun b hb hne => ?_, fun a ha _ => ?_⟩, fun _ _ hlast => ?_⟩, ?_, rfl⟩
    (Run.cons ⟨⟨trivial, trivial⟩, ?_, rfl⟩
    (Run.cons ⟨⟨⟨fun b hb hne => ?_, fun a ha _ => ?_⟩, fun _ ha => ?_⟩, ?_, rfl⟩
      (Run.nil _)))), rfl, rfl⟩
  · exact absurd (hb.unique ⟨0, rfl, rfl⟩) hne
  · rw [← Option.some.inj ha]
    exact fun hsplit => absurd hsplit (by decide)
  · refine ⟨by decide, by decide, fun x _ hx => ?_, fun a ha => ?_⟩
    · rw [← Option.some.inj hx]
      decide
    · rw [← Option.some.inj ha]
      decide
  · exact absurd (hb.unique ⟨0, rfl, rfl⟩) hne
  · rw [← Option.some.inj ha]
    exact fun _ => by decide
  · exact absurd (Except.ok.inj hlast) (by decide)
  · refine ⟨by decide, by decide, fun x _ hx => (nomatch hx), fun a ha => ?_⟩
    rw [← Option.some.inj ha]
    decide
  · exact ⟨by decide, Or.inr ⟨8192, by decide, rfl⟩⟩
  · rw [show b = 8192 from hb.unique ⟨8192, rfl, rfl⟩]
    exact fun r _ _ hsplit => absurd hsplit (by decide)
  · cases ha
  · exact absurd rfl ha
  · exact ⟨by decide, by decide, fun x _ hx => (nomatch hx), fun a ha => nomatch ha⟩

/-- Every block of this run is on one list. -/
theorem each_once_moving :
    ∃ h : Heap Memory, EachOnce h ∧ h.created = [8192, 12288, 17312] := by
  obtain ⟨h, hrun, hcreated, -⟩ := run_movingTrace
  exact ⟨h, each_once_of_run 2 emptyHeap h initial_emptyHeap movingTrace hrun, hcreated⟩

/-- A call that searches the list of the second processor, has moved to the first one
in `extendMemory` and is back on the second one in `getLastBlock`. -/
def overwritingTrace : List (Call × ℕ) :=
  [(.malloc 8 (pinned 0 (some 4096) (some 8192)), 8216),
   (.malloc 8 ⟨1, 0, 1, 1, none, some 12288⟩, 12312)]

/-- **A list is overwritten.**  The first block is on no list any more. -/
theorem not_each_once : ∃ h, Initial emptyHeap ∧ Run (Step 2) emptyHeap overwritingTrace h ∧
    8192 ∈ h.created ∧ (∀ cpu, ¬ OnList h cpu 8192) ∧ ¬ EachOnce h := by
  obtain ⟨h, hrun, hcreated, hheads, hnext⟩ : ∃ h, Run (Step 2) emptyHeap overwritingTrace h ∧
      8192 ∈ h.created ∧ h.blockHead = .array [12288, 0] ∧ get h.mem .next 12288 = 0 := by
    refine ⟨_, Run.cons ⟨?_, rfl⟩ (Run.cons ⟨?_, rfl⟩ (Run.nil _)), by decide, rfl, by decide⟩
    · refine ⟨by decide, by decide, fun x _ hx => ?_, fun a ha => ?_⟩
      · rw [← Option.some.inj hx]
        decide
      · rw [← Option.some.inj ha]
        decide
    · refine ⟨by decide, by decide, fun x _ hx => (nomatch hx), fun a ha => ?_⟩
      rw [← Option.some.inj ha]
      decide
  have hlost : ∀ cpu, ¬ OnList h cpu 8192 := by
    intro cpu hon
    have hreaches := onList_iff.mp hon
    rw [Heap.listHead, hheads] at hreaches
    have hchain : ∃ l, Visits 0 (get h.mem .next) ([12288, 0].getD cpu 0) l ∧ 8192 ∉ l := by
      rcases cpu with _ | _ | cpu
      · exact ⟨[12288], ⟨rfl, by decide, hnext⟩, by decide⟩
      · exact ⟨[], rfl, List.not_mem_nil⟩
      · exact ⟨[], rfl, List.not_mem_nil⟩
    obtain ⟨l, hl, hnot⟩ := hchain
    exact hnot (hl.reaches_iff.mp hreaches)
  refine ⟨h, initial_emptyHeap, hrun, hcreated, hlost, fun honce => ?_⟩
  obtain ⟨cpu, hcpu, -⟩ := honce 8192 hcreated
  exact hlost cpu hcpu

end AdvancedMemory
end SystemsProjects

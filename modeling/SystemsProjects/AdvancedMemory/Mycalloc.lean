import SystemsProjects.AdvancedMemory.LockBalance
import SystemsProjects.AdvancedMemory.Payloads
import SystemsProjects.AdvancedMemory.Tiling
import SystemsProjects.Allocator.ZeroedBlocks

/-!
# `mycalloc` of the second allocator

A thread on any processors calls `mymalloc`, `mycalloc` and `myfree`, and writes into the
payloads that it holds.  `mycalloc` has the faults of the first allocator, a product that
is reduced modulo `2 ^ 64` and a NULL that goes to `memset`, and it depends on two more things.
The array of list heads may be missing, because the result of `sbrk` is not tested; and a
block from `mmap` may reach over its region, and then `memset` or the next header does.

`Action.Works` is the condition on the state before a step.  `Tidy` holds between two steps
that meet it: the lists end, no mutex is taken, and the live payloads lie in their
regions.  `Tidy.calloc` says that `mycalloc` keeps its promise.
-/

namespace SystemsProjects
namespace AdvancedMemory

open Lib Allocator BlockStore

/-! ## Programs -/

/-- A step of a program: a call, or the write of a byte. -/
inductive Program.Action where
  | call (c : Request)
  | write (x : ℕ) (v : UInt8)
  deriving DecidableEq

namespace Program

/-- What the program may do, and what the operating system may answer.  A request may have
any size. -/
def Action.Allowed (cpus : ℕ) (p : Program) : Action → Prop
  | .call (.malloc s env) => (Call.malloc s env).Allowed cpus p.heap
  | .call (.calloc nmemb s cpu env) => (nmemb < 2 ^ 64 ∧ s < 2 ^ 64 ∧ cpu < cpus) ∧
      (Call.malloc (nmemb * s % 2 ^ 64) env).Allowed cpus p.heap
  | .call (.free cpu ptr) => (Call.free cpu ptr).Allowed cpus p.heap
  | .write x _ => ∃ e ∈ p.live, (payloadAt p.heap e.1).start ≤ x ∧ x < (payloadAt p.heap e.1).stop

/-- The live pointers after a call that returned `out`. -/
def liveAfterCall (live : List (ℕ × ℕ)) (out : ℕ) : Request → List (ℕ × ℕ)
  | .malloc s _ => if out = 0 then live else (out, s) :: live
  | .calloc nmemb s _ _ => if out = 0 then live else (out, nmemb * s % 2 ^ 64) :: live
  | .free _ ptr => live.filter fun e => e.1 ≠ ptr

/-- The step, with the pointer that is returned. -/
def Action.perform (cpus : ℕ) (p : Program) : Action → Except Stop (Program × ℕ)
  | .call c => do
      let (h, q) ← c.run cpus p.heap
      pure (⟨h, liveAfterCall p.live q c⟩, q)
  | .write x v =>
      pure (⟨{ p.heap with mem :=
        { p.heap.mem with bytes := Function.update p.heap.mem.bytes x v } }, p.live⟩, 0)

/-- An action that is allowed, and returns. -/
def Action.Step (cpus : ℕ) (p : Program) (c : Action) (out : ℕ) (p' : Program) : Prop :=
  c.Allowed cpus p ∧ c.perform cpus p = .ok (p', out)

/-! ## The condition -/

/-- `mycalloc` has the list heads, and it gets a block in its region for a product that does not
wrap around, or has nothing to clear. -/
def CallocWorks (h : Heap Memory) (env : Environment) (nmemb s : ℕ) : Prop :=
  h.blockHead ≠ .failed ∧ StaysInside h env (nmemb * s % 2 ^ 64) ∧
    ((nmemb * s < 2 ^ 64 ∧ (¬ NoneFits h env (nmemb * s) ∨ env.answer ≠ none)) ∨
      (nmemb * s % 2 ^ 64 = 0 ∧ NoneFits h env 0 ∧ env.answer = none))

/-- **The condition.**  Blocks that are handed out lie in their regions, no block is freed
twice, and `mycalloc` asks for nothing or works. -/
def Action.Works (cpus : ℕ) (p : Program) : Action → Prop
  | .call (.malloc s env) => StaysInside (initHeap p.heap cpus env.heads) env s
  | .call (.calloc nmemb s _ env) => nmemb = 0 ∨ s = 0 ∨
      CallocWorks (initHeap p.heap cpus env.heads) env nmemb s
  | .call (.free cpu ptr) => ¬ (Request.free cpu ptr).FreesFree p.heap
  | .write _ _ => True

/-- **Between two steps.** -/
structure Tidy (cpus : ℕ) (p : Program) : Prop where
  ending : Ending p.heap
  unlocked : NoLock p.heap
  heads : ∀ lists, p.heap.blockHead = .array lists → lists.length = cpus
  unused : p.heap.blockHead = .null → p.heap.created = []
  live : LiveBlocks p.heap p.live
  inside : ∀ e ∈ p.live, ∀ b, e.1 = b + blockSize → InRegion p.heap b

end Program

variable {h h' h₁ : Heap Memory} {live : List (ℕ × ℕ)} {cpu cpus nmemb s b c q : ℕ}
  {env : Environment}

/-! ## What a call leaves as it was -/

/-- The first call makes no list, or empty ones; another call keeps the array. -/
theorem MallocOutcome.heads_cases (houtcome : MallocOutcome h env s h' q) :
    h'.blockHead = h.blockHead ∨
      ∃ lists, ∃ x a : ℕ, h.blockHead = .array lists ∧ h'.blockHead = .array (lists.set x a) := by
  have hlinked : ∀ {a last : ℕ} {h₁ : Heap Memory}, Linked h env.extend last s a h₁ →
      h₁.blockHead = h.blockHead ∨
        ∃ lists, ∃ x a : ℕ, h.blockHead = .array lists ∧ h₁.blockHead = .array (lists.set x a) := by
    intro a last h₁ k
    cases k with
    | @head lists hlast hheads hcpu => exact Or.inr ⟨lists, env.extend, a, hheads, rfl⟩
    | behind hlast => exact Or.inl rfl
  cases houtcome with
  | reuse => exact Or.inl rfl
  | reuseSplit => exact Or.inl rfl
  | refused => exact Or.inl rfl
  | extend _ _ _ hlink => exact hlinked hlink
  | extendSplit _ _ _ hlink =>
    have hheads := hlinked hlink
    exact hheads

theorem bytes_initHeap (h : Heap Memory) (cpus : ℕ) (answer : Option ℕ) :
    (initHeap h cpus answer).mem.bytes = h.mem.bytes := by
  rw [initHeap]
  split
  · rw [(initLocks_fields (allocateHeads h cpus answer) cpus).1]
    cases answer <;> rfl
  · rfl

/-- The live blocks keep their sizes. -/
theorem LiveBlocks.size_malloc (v : LiveBlocks h live) (o : Walks h)
    (hfresh : ∀ a, env.answer = some a → Fresh h.mem (request s a).1)
    (houtcome : MallocOutcome h env s h' q) {e : ℕ × ℕ} (he : e ∈ live)
    (hc : e.1 = c + blockSize) : get h'.mem .size c = get h.mem .size c := by
  rcases o.handed hfresh houtcome with ⟨-, rfl, -⟩ | ⟨-, b, -, hhanded⟩
  · rfl
  · exact v.size_of_others hhanded.kept hhanded.idle he hc

namespace Program.Tidy

/-! ## The invariant -/

variable {p p' : Program}

theorem of_initial (hinit : p.Initial) (cpus : ℕ) : Tidy cpus p where
  ending := by
    have hcreated : ∀ b, b ∉ p.heap.created := by
      intro b
      rw [hinit.heap.created]
      exact List.not_mem_nil
    exact
      { toLayout := (ordered_of_initial hinit.heap).toLayout
        next := fun b hb => absurd hb (hcreated b)
        heads := fun cpu => by
          rw [Heap.listHead, hinit.heap.blockHead]
          exact Or.inl rfl
        ends := fun b hb => absurd hb (hcreated b) }
  unlocked := hinit.heap.locks
  heads lists hlists := by
    rw [hinit.heap.blockHead] at hlists
    cases hlists
  unused _ := hinit.heap.created
  live := by
    rw [hinit.live]
    exact LiveBlocks.nil _
  inside e he := by
    rw [hinit.live] at he
    exact absurd he List.not_mem_nil

/-- The block of a live pointer. -/
theorem block (i : Tidy cpus p) {e : ℕ × ℕ} (he : e ∈ p.live) :
    ∃ b ∈ p.heap.created, e.1 = b + blockSize ∧ headerOf e.1 = b ∧ InRegion p.heap b := by
  obtain ⟨b, hb, heb, -⟩ := i.live.block e he
  have hbound := i.ending.header_bound hb
  exact ⟨b, hb, heb, by rw [heb, headerOf_add (by omega)], i.inside e he b heb⟩

/-- **The first call** sets the heap up. -/
theorem init (i : Tidy cpus p) {answer : Option ℕ}
    (hfresh : ∀ x, p.heap.blockHead = .null → answer = some x → Fresh p.heap.mem ⟨x, 8 * cpus⟩) :
    Tidy cpus ⟨initHeap p.heap cpus answer, p.live⟩ where
  ending := i.ending.init hfresh
  unlocked := initHeap_noLock i.unlocked cpus answer
  heads lists hlists := by
    rcases initHeap_cases p.heap cpus answer with ⟨-, heq⟩ | ⟨-, hfailed | harray⟩
    · rw [heq] at hlists
      exact i.heads lists hlists
    · rw [hfailed] at hlists
      cases hlists
    · rw [harray, Heads.array.injEq] at hlists
      rw [← hlists, List.length_replicate]
  unused hnull := absurd hnull (initHeap_ne_null _ _ _)
  live := i.live.init i.unused cpus answer
  inside e he b heb := by
    obtain ⟨-, hget, hregions⟩ := initHeap_fields p.heap cpus answer
    exact (i.inside e he b heb).mono hregions (hget .size b)

/-- **One call of `mymalloc`.** -/
theorem malloc (hset : initHeap h cpus env.heads = h₁) (i : Tidy cpus ⟨h₁, live⟩)
    (hfree : NoLock h) (hfresh : ∀ a, env.answer = some a → Fresh h₁.mem (request s a).1)
    (hstays : StaysInside h₁ env s) (hcall : mymalloc h cpus env s = .ok (h', q)) :
    Tidy cpus ⟨h', if q = 0 then live else (q, s) :: live⟩ := by
  subst hset
  have o := i.ending.walks
  have houtcome := o.mymalloc_cases hfresh hstays.splitsInside hcall
  have hkept : ∀ e ∈ live, ∀ b, e.1 = b + blockSize → InRegion h' b := fun e he b heb =>
    (i.inside e he b heb).mono houtcome.regions_subset
      (i.live.size_malloc o hfresh houtcome he heb)
  refine
    { ending := i.ending.malloc hfresh houtcome
      unlocked := (mymalloc_avoids hfree cpus env s).2 _ hcall
      heads := fun lists hlists => ?_, unused := fun hnull => ?_
      live := i.live.malloc o hfresh houtcome, inside := fun e he b heb => ?_ }
  · rcases houtcome.heads_cases with heq | ⟨lists', x, a, harray, hset⟩
    · rw [heq] at hlists
      exact i.heads lists hlists
    · rw [hset, Heads.array.injEq] at hlists
      rw [← hlists, List.length_set]
      exact i.heads lists' harray
  · rcases houtcome.heads_cases with heq | ⟨lists', x, a, -, hset⟩
    · rw [heq] at hnull
      exact absurd hnull (initHeap_ne_null _ _ _)
    · rw [hset] at hnull
      cases hnull
  · dsimp only at he
    split at he
    · exact hkept e he b heb
    · rcases List.mem_cons.mp he with rfl | he
      · rw [show q = b + blockSize from heb] at hcall
        exact o.inRegion hfresh hstays hcall
      · exact hkept e he b heb

/-- **`mymalloc` leaves the live payloads alone.** -/
theorem bytes_malloc (hset : initHeap h cpus env.heads = h₁) (i : Tidy cpus ⟨h₁, live⟩)
    (hfresh : ∀ a, env.answer = some a → Fresh h₁.mem (request s a).1)
    (hstays : StaysInside h₁ env s) (hcall : mymalloc h cpus env s = .ok (h', q))
    {e : ℕ × ℕ} (he : e ∈ live) (heb : e.1 = b + blockSize) {x : ℕ} (hx₀ : b + blockSize ≤ x)
    (hx₁ : x < b + blockSize + get h.mem .size b) : h'.mem.bytes x = h.mem.bytes x := by
  subst hset
  have o := i.ending.walks
  have houtcome := o.mymalloc_cases hfresh hstays.splitsInside hcall
  have hsize := i.live.size_malloc o hfresh houtcome he heb
  have hsize₀ : get (initHeap h cpus env.heads).mem .size b = get h.mem .size b :=
    (initHeap_fields h cpus env.heads).2.1 .size b
  have l' := (i.ending.malloc hfresh houtcome).toLayout
  obtain ⟨c, hc, hec, -⟩ := (i.live.malloc o hfresh houtcome).block e (by
    split
    · exact he
    · exact List.mem_cons_of_mem _ he)
  obtain rfl : b = c := Nat.add_right_cancel (heb.symm.trans hec)
  have hin : InRegion h' b := (i.inside e he b heb).mono houtcome.regions_subset hsize
  have hoff : OffHeaders h' x := l'.offHeaders hc hin hx₀ (by rw [hsize, hsize₀]; exact hx₁)
  rw [o.bytes_malloc houtcome hoff, bytes_initHeap]

/-- **Writing into a live payload.** -/
theorem overwrite (i : Tidy cpus p) {e : ℕ × ℕ} (he : e ∈ p.live) (heb : e.1 = b + blockSize)
    {bytes : ℕ → UInt8} (hbytes : ∀ x, x < b + blockSize ∨
      b + blockSize + get p.heap.mem .size b ≤ x → bytes x = p.heap.mem.bytes x) :
    Tidy cpus ⟨{ p.heap with mem := { p.heap.mem with bytes := bytes } }, p.live⟩ := by
  obtain ⟨d, hd, hed, -, hin⟩ := i.block he
  obtain rfl : b = d := Nat.add_right_cancel (heb.symm.trans hed)
  have o := i.ending
  have hget : ∀ c ∈ p.heap.created, ∀ f,
      get ({ p.heap.mem with bytes := bytes } : Memory) f c = get p.heap.mem f c := fun c hc f =>
    o.toLayout.get_of_payload hd hin hbytes hc f
  refine
    { ending :=
        { toLayout := o.toLayout.of_fields rfl rfl fun c hc => hget c hc .size
          next := fun c hc => ?_, heads := o.heads, ends := fun c hc => ?_ }
      unlocked := i.unlocked, heads := i.heads, unused := i.unused
      live := ⟨fun e he => ?_, i.live.once⟩, inside := fun e he c hec => ?_ }
  · show get ({ p.heap.mem with bytes := bytes } : Memory) .next c = 0 ∨
      get ({ p.heap.mem with bytes := bytes } : Memory) .next c ∈ p.heap.created
    rw [hget c hc]
    exact o.next c hc
  · obtain ⟨l, hl, hcreated⟩ := o.chain_of_mem hc
    exact ⟨l, hl.congr fun x hx => hget x (hcreated x hx) .next⟩
  · obtain ⟨c, hc, hec, hzero, hle⟩ := i.live.block e he
    refine ⟨c, hc, hec, ?_, ?_⟩
    · exact (hget c hc .free).trans hzero
    · exact hle.trans (hget c hc .size).ge
  · obtain ⟨d, hd, hed, -⟩ := i.block he
    obtain rfl : c = d := Nat.add_right_cancel (hec.symm.trans hed)
    exact (i.inside e he c hec).mono (fun _ hr => hr) (hget c hd .size)

/-- **A pointer is freed.** -/
theorem free (i : Tidy cpus p) {ptr : ℕ}
    (hptr : ptr = 0 ∨ ∃ b ∈ p.heap.created, ptr = b + blockSize)
    (hcall : myfree p.heap cpu ptr = .ok h') (hunlocked : NoLock h') :
    Tidy cpus ⟨h', p.live.filter fun e => e.1 ≠ ptr⟩ := by
  have hlive : ∀ e ∈ p.live.filter fun e => e.1 ≠ ptr, e ∈ p.live := fun e he =>
    (List.mem_filter.mp he).1
  have honce : ((p.live.filter fun e => e.1 ≠ ptr).map Prod.fst).Nodup :=
    i.live.once.sublist (List.filter_sublist.map _)
  rcases i.ending.toLayout.myfree_cases hptr hcall with ⟨hmem, hheads, hcreated⟩ | ⟨b, hb, rfl, rfl⟩
  · obtain ⟨mem, heads, locks, created⟩ := h'
    obtain rfl : mem = p.heap.mem := hmem
    obtain rfl : heads = p.heap.blockHead := hheads
    obtain rfl : created = p.heap.created := hcreated
    exact
      { ending := i.ending.of_eq rfl rfl rfl, unlocked := hunlocked, heads := i.heads
        unused := i.unused
        live := ⟨fun e he => i.live.block e (hlive e he), honce⟩
        inside := fun e he => i.inside e (hlive e he) }
  · have l := i.ending.toLayout
    have hsize : ∀ c ∈ p.heap.created,
        get (set p.heap.mem .free b 1) .size c = get p.heap.mem .size c := fun c hc =>
      l.get_set hb hc 1 (Or.inr (by decide))
    refine
      { ending := i.ending.setFree hb 1, unlocked := hunlocked, heads := i.heads
        unused := i.unused, live := i.live.free (l.kept_setFree hb 1)
        inside := fun e he c hec => ?_ }
    obtain ⟨d, hd, hed, -⟩ := i.block (hlive e he)
    obtain rfl : c = d := Nat.add_right_cancel (hec.symm.trans hed)
    exact (i.inside e (hlive e he) c hec).mono (fun _ hr => hr) (hsize c hd)

/-! ## `mycalloc` -/

/-- The heap is ready if the list heads could be allocated. -/
theorem ready (i : Tidy cpus p) (hnull : p.heap.blockHead ≠ .null)
    (hfailed : p.heap.blockHead ≠ .failed) : Ready cpus p.heap := by
  refine ⟨?_, i.unlocked⟩
  cases hheads : p.heap.blockHead with
  | null => exact absurd hheads hnull
  | failed => exact absurd hheads hfailed
  | array lists => exact ⟨lists, rfl, i.heads lists hheads⟩

/-- **`mymalloc` in a heap that is ready** returns, and this is what it returns. -/
theorem malloc_ready (hset : initHeap h cpus env.heads = h₁) (i : Tidy cpus ⟨h₁, live⟩)
    (r : Ready cpus h₁) (hcpus : env.find < cpus ∧ env.extend < cpus ∧ env.last < cpus)
    (hfresh : ∀ a, env.answer = some a → Fresh h₁.mem (request s a).1)
    (hstays : StaysInside h₁ env s) :
    ∃ h' q, mymalloc h cpus env s = .ok (h', q) ∧
      ((q = 0 ∧ h' = h₁ ∧ NoneFits h₁ env s ∧ env.answer = none) ∨
        ((¬ NoneFits h₁ env s ∨ env.answer ≠ none) ∧
          ∃ b, q = b + blockSize ∧ Handed h₁ h' b s ∧ InRegion h' b)) := by
  subst hset
  have o := i.ending.walks
  obtain ⟨h', q, hcall⟩ := i.ending.mymalloc_returns r hcpus hfresh hstays.splitsInside
  refine ⟨h', q, hcall, ?_⟩
  rcases o.handed hfresh (o.mymalloc_cases hfresh hstays.splitsInside hcall) with
    hrefused | ⟨hgranted, b, rfl, hb⟩
  · exact Or.inl hrefused
  · exact Or.inr ⟨hgranted, b, rfl, hb, o.inRegion hfresh hstays hcall⟩

/-- `memset` on the pointer that `mymalloc` has returned. -/
theorem mycalloc_eq (cpu : ℕ) {n : ℕ} (hzero : ¬ (nmemb = 0 ∨ s = 0))
    (hn : nmemb * s % 2 ^ 64 = n)
    (hcall : mymalloc (initHeap h cpus env.heads) cpus env n = .ok (h', q)) (hfree : NoLock h')
    (hmapped : h'.mem.Accessible q n) :
    mycalloc h cpus env cpu nmemb s = .ok ({ h' with mem := cleared h'.mem q n }, q) := by
  rw [mycalloc]
  dsimp only
  rw [if_neg hzero, hn, hcall, ok_bind]
  dsimp only
  rw [lockMutex, if_neg (by rw [hfree cpu]; decide), pure_eq_ok, ok_bind]
  dsimp only
  rw [clear, store_cleared hmapped, ok_bind, unlock_lock (hfree cpu) _ rfl]
  rfl

theorem perform_calloc (cpu : ℕ) {n : ℕ} (hn : nmemb * s % 2 ^ 64 = n)
    (hcalloc : mycalloc p.heap cpus env cpu nmemb s = .ok (h', q)) :
    (Action.call (.calloc nmemb s cpu env)).perform cpus p =
      .ok (⟨h', if q = 0 then p.live else (q, n) :: p.live⟩, q) := by
  rw [Action.perform, Request.run, hcalloc, ← hn]
  rfl

/-- **`mycalloc` when `mymalloc` returns a block** for the product. -/
theorem calloc_handed (i : Tidy cpus p) (i' : Tidy cpus ⟨h', (b + blockSize, s) :: p.live⟩)
    (hhanded : Handed h₁ h' b s) (hlive : LiveBlocks h₁ p.live)
    (hsizes : ∀ c, get h₁.mem .size c = get p.heap.mem .size c)
    (hbytes : ∀ e ∈ p.live, ∀ c, e.1 = c + blockSize → ∀ x, c + blockSize ≤ x →
      x < c + blockSize + get p.heap.mem .size c → h'.mem.bytes x = p.heap.mem.bytes x)
    (hmapped : h'.mem.Accessible (b + blockSize) s) :
    Tidy cpus ⟨{ h' with mem := cleared h'.mem (b + blockSize) s }, (b + blockSize, s) :: p.live⟩ ∧
      Zeroed p.live p.heap.mem (cleared h'.mem (b + blockSize) s) (b + blockSize) s := by
  have l' : Layout h' := i'.ending.toLayout
  have hbound := l'.header_bound hhanded.mem
  have hlarge := hhanded.large
  constructor
  · refine i'.overwrite List.mem_cons_self rfl fun x hx => put_of_notMem (hx.imp_right ?_)
    exact (Nat.add_le_add_left hlarge _).trans
  · refine zeroed_cleared (by omega) ?_ hhanded.taken hlarge hmapped fun e he x hx₀ hx₁ => ?_
    · have honce := i'.live.once
      rw [List.map_cons, List.nodup_cons] at honce
      exact honce.1
    · obtain ⟨c, -, hec, hheader, -⟩ := i.block he
      rw [hec] at hx₀
      rw [hheader, hec] at hx₁
      refine ⟨hbytes e he c hec x hx₀ hx₁, ?_⟩
      -- the two blocks are different, and their payloads are disjoint
      obtain ⟨d, hd, hed, hzero, -⟩ := hlive.block e he
      obtain rfl : c = d := Nat.add_right_cancel (hec.symm.trans hed)
      have hne : c ≠ b := by
        rintro rfl
        exact hhanded.idle hd hzero
      have hsize := hhanded.kept.fields c hd hne .size (by decide)
      rw [hsizes] at hsize
      have hc := hhanded.kept.created c hd
      rcases Nat.lt_or_gt_of_ne hne with hlt | hlt
      · have hbefore := l'.payload_before hc hhanded.mem hlt
        omega
      · have hbefore := l'.payload_before hhanded.mem hc hlt
        omega

/-- **`mycalloc` keeps its promise**, under the condition. -/
theorem calloc (i : Tidy cpus p)
    (hallowed : (Action.call (.calloc nmemb s cpu env)).Allowed cpus p)
    (hworks : (Action.call (.calloc nmemb s cpu env)).Works cpus p) :
    ∃ p' out, (Action.call (.calloc nmemb s cpu env)).perform cpus p = .ok (p', out) ∧
      Tidy cpus p' ∧ CallocPromise p.live p.heap.mem p'.heap.mem out (nmemb * s) := by
  obtain ⟨-, -, ⟨hfind, hextend, hlast, -⟩, hheads, hfresh⟩ := hallowed
  have i₁ := i.init hheads
  by_cases hzero : nmemb = 0 ∨ s = 0
  · refine ⟨⟨initHeap p.heap cpus env.heads, p.live⟩, 0, ?_, i₁,
      Or.inl ⟨rfl, bytes_initHeap _ _ _⟩⟩
    rw [Action.perform, Request.run, mycalloc]
    dsimp only
    rw [if_pos hzero]
    rfl
  · obtain ⟨hfailed, hstays, hcase⟩ : CallocWorks (initHeap p.heap cpus env.heads) env nmemb s := by
      rcases hworks with hnull | hnull | hworks
      · exact absurd (Or.inl hnull) hzero
      · exact absurd (Or.inr hnull) hzero
      · exact hworks
    have hset := initHeap_idem p.heap cpus env.heads env.heads
    have r := i₁.ready (initHeap_ne_null _ _ _) hfailed
    obtain ⟨h', q, hcall, hresult⟩ :=
      malloc_ready hset i₁ r ⟨hfind, hextend, hlast⟩ hfresh hstays
    have i' := malloc hset i₁ i₁.unlocked hfresh hstays hcall
    rcases hresult with ⟨rfl, rfl, hnone, hanswer⟩ | ⟨hgranted, b, rfl, hhanded, hin⟩
    · -- NULL, and nothing to clear
      have hprod : nmemb * s % 2 ^ 64 = 0 := by
        rcases hcase with ⟨hlt, hserved⟩ | ⟨hprod, -⟩
        · rw [Nat.mod_eq_of_lt hlt] at hnone
          exact absurd hanswer (hserved.resolve_left (not_not.mpr hnone))
        · exact hprod
      rw [hprod] at hcall
      have hcalloc := mycalloc_eq cpu hzero hprod hcall i'.unlocked (accessible_zero _ 0)
      rw [cleared_zero] at hcalloc
      exact ⟨_, 0, perform_calloc cpu hprod hcalloc, i₁, Or.inl ⟨rfl, bytes_initHeap _ _ _⟩⟩
    · -- a block for the product
      have hprod : nmemb * s % 2 ^ 64 = nmemb * s := by
        rcases hcase with ⟨hlt, -⟩ | ⟨hprod, hnone, hanswer⟩
        · exact Nat.mod_eq_of_lt hlt
        · rw [hprod] at hgranted
          exact absurd hanswer (hgranted.resolve_left (not_not.mpr hnone))
      rw [hprod] at hcall hhanded i' hfresh hstays
      have hpositive : b + blockSize ≠ 0 := Nat.succ_ne_zero (b + 23)
      have hsizes := (initHeap_fields p.heap cpus env.heads).2.1
      have hmapped := hin.accessible hhanded.large
      rw [if_neg hpositive] at i'
      obtain ⟨i'', hzeroed⟩ := i.calloc_handed i' hhanded i₁.live (hsizes .size)
        (fun e he c hec x hx₀ hx₁ => by
          rw [bytes_malloc hset i₁ hfresh hstays hcall he hec hx₀ (by rw [hsizes]; exact hx₁),
            bytes_initHeap]) hmapped
      have hperform := perform_calloc cpu hprod
        (mycalloc_eq cpu hzero hprod hcall i'.unlocked hmapped)
      rw [if_neg hpositive] at hperform
      exact ⟨_, b + blockSize, hperform, i'', Or.inr ⟨hpositive, hzeroed⟩⟩

/-! ## Runs -/

/-- **One step under the condition.** -/
theorem step (i : Tidy cpus p) {c : Action} (hworks : c.Works cpus p)
    (hstep : c.Step cpus p q p') : Tidy cpus p' := by
  obtain ⟨hallowed, hperform⟩ := hstep
  cases c with
  | write x v =>
    obtain ⟨e, he, hx₀, hx₁⟩ := hallowed
    obtain ⟨b, -, heb, hheader, -⟩ := i.block he
    obtain ⟨rfl, -⟩ := Prod.mk.inj (Except.ok.inj hperform)
    refine i.overwrite he heb fun y hy => Function.update_of_ne ?_ _ _
    rintro rfl
    simp only [payloadAt, Extent.stop, hheader] at hx₀ hx₁
    omega
  | call c =>
    cases c with
    | calloc nmemb s cpu env =>
      obtain ⟨p₁, out, hcalloc, i₁, -⟩ := i.calloc hallowed hworks
      rw [hperform, Except.ok.injEq, Prod.mk.injEq] at hcalloc
      rw [hcalloc.1]
      exact i₁
    | malloc s env =>
      obtain ⟨⟨h', out⟩, hcall, hp'⟩ := bind_eq_ok.mp hperform
      obtain ⟨rfl, rfl⟩ := Prod.mk.inj (Except.ok.inj hp')
      obtain ⟨-, -, hheads, hfresh⟩ := hallowed
      exact malloc rfl (i.init hheads) i.unlocked hfresh hworks hcall
    | free cpu ptr =>
      obtain ⟨⟨h', out⟩, hcall, hp'⟩ := bind_eq_ok.mp hperform
      obtain ⟨rfl, rfl⟩ := Prod.mk.inj (Except.ok.inj hp')
      have hunlocked := ((i.unlocked.call cpus (.free cpu ptr)).2.mpr hworks).2 out h' hcall
      obtain ⟨h₁, hfree, hh'⟩ := bind_eq_ok.mp hcall
      obtain ⟨rfl, -⟩ := Prod.mk.inj (Except.ok.inj hh')
      exact i.free hallowed.2 hfree hunlocked

/-- The invariant holds after every run whose steps meet the condition. -/
theorem of_run {p₀ : Program} (hinit : p₀.Initial) {tr : List (Action × ℕ)}
    (hrun : Run (Guarded (fun p c => c.Works cpus p) (Action.Step cpus)) p₀ tr p) :
    Tidy cpus p :=
  hrun.invariant (fun _ _ _ _ i hs => i.step hs.1 hs.2) (of_initial hinit cpus)

end Program.Tidy

end AdvancedMemory
end SystemsProjects

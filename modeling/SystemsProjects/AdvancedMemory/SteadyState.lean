import SystemsProjects.AdvancedMemory.OneList
import SystemsProjects.Lib.BestFit
import SystemsProjects.Lib.Rounds

/-!
# Rounds of the same requests

A program allocates blocks of some sizes and frees them again, round after round, with the
sizes and the pointers in any order.  The first round may ask the operating system for
memory.  No later one does, although every round splits blocks for good and none is ever put
together again.

A free block can serve a request if it is large enough, and `mymalloc` takes the smallest one
that is.  What carries over from round to round is that the free blocks can serve all requests of a
round, each its own (`Assigned`): after the first round the blocks that were just freed
do.  During a round the requests that are left can still be served, because best
fit takes no block that another request needs (`Assigned.take`), and what is cut off from the
block that was taken is one more free block.  After the round, the blocks that were handed out
are free again, and each is large enough for its request.

`Quiet` is a call that asks the system for nothing, `Steady` says that all further rounds consist
of such calls, and `steady_state` that they do, by the rules of rounds (`Serving.rules`).
-/

namespace SystemsProjects
namespace AdvancedMemory

open Lib Allocator BlockStore

/-! ## Rounds -/

section Rounds

variable {M : Type} [BlockStore M]

/-- `mymalloc` answers a request of `s` bytes with a pointer, with or without the help of the
system. -/
def Serves (cpus cpu : ℕ) (h : Heap M) (s q : ℕ) (h' : Heap M) : Prop :=
  q ≠ 0 ∧ ∃ heads answer, PinnedStep cpus cpu h (.malloc s (pinned cpu heads answer)) q h'

/-- `myfree` for each of the pointers. -/
def freeAll (h : Heap M) (cpu : ℕ) (ptrs : List ℕ) : Except Stop (Heap M) :=
  ptrs.foldlM (fun h ptr => myfree h cpu ptr) h

/-- **A call of `mymalloc` without `sbrk` and `mmap`.** -/
structure Quiet (cpus cpu : ℕ) (h : Heap M) (s q : ℕ) (h' : Heap M) : Prop where
  /-- the list heads are there, and no `sbrk` is called for them -/
  started : h.blockHead ≠ .null
  /-- there is a best block, and `extendMemory` is not called -/
  found : ∃ b, b ≠ 0 ∧ findOptimalFreeBlock h cpu s = .ok (h, b)
  /-- the call returns the same whatever the system would answer, also if it refuses -/
  returns : ∀ heads answer, mymalloc h cpus (pinned cpu heads answer) s = .ok (h', q)
  pointer : q ≠ 0
  regions : regions h'.mem = regions h.mem

/-- **In the next `n` rounds nothing is asked of the system.**  In each round the requests come
in any order, every call of `mymalloc` is quiet, and the pointers can be freed in any order. -/
def Steady (cpus cpu : ℕ) (sizes : List ℕ) : ℕ → Heap M → Prop
  | 0, _ => True
  | n + 1, h => ∀ requests : List ℕ, requests.Perm sizes →
      ∃ (tr : List (ℕ × ℕ)) (h₁ : Heap M), tr.map Prod.fst = requests ∧
        Run (Quiet cpus cpu) h tr h₁ ∧
        ∀ order : List ℕ, order.Perm (tr.map Prod.snd) →
          ∃ h₂, freeAll h₁ cpu order = .ok h₂ ∧ Steady cpus cpu sizes n h₂

/-- Rounds without a request. -/
theorem steady_nil (cpus cpu : ℕ) : ∀ (n : ℕ) (h : Heap M), Steady cpus cpu [] n h
  | 0, _ => trivial
  | n + 1, h => by
    intro requests hperm
    refine ⟨[], h, hperm.eq_nil.symm, Run.nil h, fun order horder => ⟨h, ?_, ?_⟩⟩
    · rw [horder.eq_nil]
      rfl
    · exact steady_nil cpus cpu n h

/-- The rounds are those of the general rules. -/
theorem steady_of_rounds {cpus cpu : ℕ} {sizes : List ℕ} (n : ℕ) : ∀ {h : Heap M},
    Lib.Steady (Quiet cpus cpu) (fun h ptr => myfree h cpu ptr) sizes n h →
      Steady cpus cpu sizes n h := by
  induction n with
  | zero => exact fun _ => trivial
  | succ n ih =>
    intro h hsteady requests hperm
    obtain ⟨tr, h₁, hrequests, hrun, hall⟩ := hsteady requests hperm
    refine ⟨tr, h₁, hrequests, hrun, fun order horder => ?_⟩
    obtain ⟨h₂, hfree, hnext⟩ := hall order horder
    exact ⟨h₂, hfree, ih hnext⟩

end Rounds

variable {h h' h₁ : Heap Records} {b c cpu cpus s q : ℕ} {rest : List ℕ}
  {held tr : List (ℕ × ℕ)}

/-! ## The heap of the thread -/

namespace OneList

theorem of_initial (hinit : Initial h) : OneList cpu h where
  bound r hr := by
    rw [hinit.regions] at hr
    exact absurd hr List.not_mem_nil
  home b hb := by
    rw [hinit.created] at hb
    exact absurd hb List.not_mem_nil
  before b hb := by
    rw [hinit.created] at hb
    exact absurd hb List.not_mem_nil
  list := by
    refine ⟨[], ?_, fun b => by rw [hinit.created]⟩
    rw [visits_nil, Heap.listHead, hinit.blockHead]
  unused _ := hinit.created

/-- `myfree` of the payload of a block. -/
theorem myfree_eq (k : OneList cpu h) (hb : b ∈ h.created) :
    myfree h cpu (b + blockSize) =
      if h.locks cpu = true then .error .deadlock
      else if get h.mem .free b = 1 then
        .ok { h with locks := Function.update h.locks cpu true }
      else .ok { h with mem := set h.mem .free b 1 } :=
  AdvancedMemory.myfree_eq (k.add_blockSize_lt hb) (k.header hb)

/-- **One call of the thread**, of any kind. -/
theorem step {c : Call} (k : OneList cpu h) (hstep : PinnedStep cpus cpu h c q h') :
    OneList cpu h' := by
  obtain ⟨hpinned, hallowed, hcall⟩ := hstep
  cases c with
  | malloc s env =>
    obtain ⟨-, -, hheads, hfresh⟩ := hallowed
    have k₀ := k.init hheads
    rw [perform, hpinned.eq_pinned] at hcall
    obtain ⟨-, ⟨-, rfl⟩ | ⟨b, -, o⟩⟩ := k₀.mymalloc_cases hfresh hcall
    · exact k₀
    · exact o.oneList
  | free x ptr =>
    obtain ⟨h₁, hfree, hcall⟩ := bind_eq_ok.mp hcall
    rw [pure_eq_ok, Except.ok.injEq, Prod.mk.injEq] at hcall
    obtain rfl := hcall.1
    obtain rfl : x = cpu := hpinned
    obtain ⟨-, rfl | ⟨b, hb, rfl⟩⟩ := hallowed
    · rw [myfree_null] at hfree
      obtain rfl := Except.ok.inj hfree
      exact k
    · rw [k.myfree_eq hb] at hfree
      split at hfree
      · cases hfree
      · split at hfree
        · rw [← Except.ok.inj hfree]
          exact k.of_fields rfl rfl rfl fun _ _ => ⟨rfl, rfl⟩
        · rw [← Except.ok.inj hfree]
          exact k.setFree 1

/-- **A block that fits is found**, and the one that is found is a best fit. -/
theorem best_fit (k : OneList cpu h) (hlock : h.locks cpu = false) (hc : c ∈ h.created)
    (hfits : Fits h.mem s c) :
    ∃ b, findOptimalFreeBlock h cpu s = .ok (h, b) ∧ b ∈ h.created ∧ Fits h.mem s b ∧
      ∀ d ∈ h.created, Fits h.mem s d → get h.mem .size b ≤ get h.mem .size d := by
  obtain ⟨bs, hchain, hbs⟩ := k.chain
  have hne : ∀ b ∈ bs, b ≠ 0 := fun b hb => hchain.visits.ne_null hb
  have hmem := (hbs c).mpr hc
  have hhead : h.head cpu = .ok (h.listHead cpu) := by
    refine head_of_listHead ?_
    rw [Ne, hchain.visits.eq_null_iff]
    exact List.ne_nil_of_mem hmem
  have hfind : findOptimalFreeBlock h cpu s = .ok (h, bs.foldl (pick h.mem s) 0) := by
    rw [findOptimalFreeBlock_eq, if_neg (by rw [hlock]; decide), hhead, ok_bind,
      hchain.searchList_eq s, ok_bind]
    rfl
  refine ⟨_, hfind, ?_⟩
  have hbest := (foldl_pick_spec h.mem s bs hne).resolve_left fun hnull => hnull.2 c hmem hfits
  exact ⟨(hbs _).mp hbest.mem, hbest.fits, fun d hd => hbest.least ((hbs d).mpr hd)⟩

end OneList

/-! ## One round -/

/-- The free blocks can serve the requests `rest`, and the pointers `held` are live. -/
structure Serving (cpu : ℕ) (h : Heap Records) (rest : List ℕ) (held : List (ℕ × ℕ)) : Prop where
  oneList : OneList cpu h
  unlocked : h.locks cpu = false
  live : LiveBlocks h held
  assigned : Assigned (get h.mem .size) (fun b => b ∈ h.created ∧ get h.mem .free b = 1) rest

/-- **The first round**: one call, whether it asks the system or not. -/
theorem OneList.serving (k : OneList cpu h) (v : LiveBlocks h held)
    (hserves : Serves cpus cpu h s q h') : Serving cpu h' [] ((q, s) :: held) := by
  obtain ⟨hq, heads, answer, -, ⟨-, -, hheads, hfresh⟩, hcall⟩ := hserves
  have k₀ := k.init hheads
  obtain ⟨hlock, ⟨hzero, -⟩ | ⟨b, rfl, o⟩⟩ := k₀.mymalloc_cases hfresh hcall
  · exact absurd hzero hq
  · refine ⟨o.oneList, ?_, ?_, Assigned.nil⟩
    · rw [o.locks]
      exact hlock
    · exact (v.init k.unused cpus heads).hand o.kept o.idle o.mem o.taken o.large

namespace Serving

/-- The requests in another order. -/
theorem perm {rest' : List ℕ} (v : Serving cpu h rest held) (hperm : rest.Perm rest') :
    Serving cpu h rest' held :=
  ⟨v.oneList, v.unlocked, v.live, v.assigned.perm hperm⟩

/-- **A later round**: one call, which is quiet, and leaves the free blocks that the other
requests need. -/
theorem quiet (v : Serving cpu h (s :: rest) held) (cpus : ℕ) :
    ∃ q h', Quiet cpus cpu h s q h' ∧ Serving cpu h' rest ((q, s) :: held) := by
  obtain ⟨c, -, ⟨⟨hc, hone⟩, hle⟩, -⟩ := v.assigned.exists_place
  obtain ⟨b, hfind, hb, hfits, hbest⟩ := v.oneList.best_fit v.unlocked hc ⟨hle, hone⟩
  have hne := v.oneList.ne_zero hb
  have hstarted : h.blockHead ≠ .null := fun hnull => by
    rw [v.oneList.unused hnull] at hb
    exact List.not_mem_nil hb
  have hinit : ∀ heads, initHeap h cpus heads = h := fun heads => if_neg hstarted
  have o := v.oneList.handOut hb hfits
  refine ⟨b + blockSize, handOut h b s, ⟨hstarted, ⟨b, hne, hfind⟩, fun heads answer => ?_,
    Nat.succ_ne_zero (b + 23), ?_⟩, o.oneList, ?_, ?_, ?_⟩
  · exact v.oneList.mymalloc_eq (hinit heads) v.unlocked hfind hb hfits
  · rw [handOut]
    split
    · exact regions_splitMem
    · rfl
  · rw [o.locks]
    exact v.unlocked
  · exact v.live.hand o.kept o.idle o.mem o.taken o.large
  · have htaken := v.assigned.take (b := b) fun d hd hle => hbest d hd.1 ⟨hle, hd.2⟩
    refine htaken.mono (fun d hd => ⟨o.kept.created d hd.1.1, ?_⟩) fun d hd => ?_
    · rw [o.kept.fields d hd.1.1 hd.2 .free (by decide)]
      exact hd.1.2
    · exact (o.kept.fields d hd.1.1 hd.2 .size (by decide)).ge

/-- **A live pointer is freed**, and its block can serve its request. -/
theorem free {e : ℕ × ℕ} (v : Serving cpu h rest held) (he : e ∈ held) :
    ∃ h' others, myfree h cpu e.1 = .ok h' ∧ held.Perm (e :: others) ∧
      Serving cpu h' (e.2 :: rest) others := by
  obtain ⟨b, hb, heb, hzero, hle⟩ := v.live.block e he
  have hkept : OthersKept h { h with mem := set h.mem .free b 1 } b :=
    ⟨fun _ hc => hc, fun _ _ hcb _ _ => get_set_records 1 (Or.inl hcb)⟩
  refine ⟨{ h with mem := set h.mem .free b 1 }, held.filter fun d => d.1 ≠ e.1, ?_,
    perm_cons_filter_ne v.live.once he, v.oneList.setFree 1, v.unlocked, ?_, ?_⟩
  · rw [heb, v.oneList.myfree_eq hb, if_neg (by rw [v.unlocked]; decide), hzero,
      if_neg (by decide)]
  · rw [heb]
    exact v.live.free hkept
  · have hsize : get (set h.mem .free b 1) .size = get h.mem .size :=
      funext fun c => get_set_records 1 (Or.inr (by decide))
    show Assigned (get (set h.mem .free b 1) .size) _ _
    rw [hsize]
    refine v.assigned.cons (b := b) (fun hfree => ?_) ⟨hb, get_set_of_lt _ b (by decide)⟩
      (fun c hc => ⟨hc.1, ?_⟩) hle
    · rw [hzero] at hfree
      exact absurd hfree.2 (by decide)
    · by_cases hcb : c = b
      · rw [hcb]
        exact get_set_of_lt _ b (by decide)
      · exact (get_set_records 1 (Or.inl hcb)).trans hc.2

/-- The rules of a thread's rounds. -/
theorem rules (cpus cpu : ℕ) : RoundRules (Serves cpus cpu) (Quiet cpus cpu)
    (fun h ptr => myfree h cpu ptr) (Serving cpu) where
  serve v hserves := v.oneList.serving v.live hserves
  quiet v := v.quiet cpus
  release v he := v.free he
  perm v hperm := v.perm hperm

/-- **Round after round.** -/
theorem steady (cpus : ℕ) {sizes : List ℕ} (n : ℕ) (v : Serving cpu h sizes []) :
    Steady cpus cpu sizes n h :=
  steady_of_rounds n ((rules cpus cpu).steady n v)

end Serving

/-- **The steady state.**  A thread on one processor, in any heap that its calls can lead to,
serves the requests `first` and frees the pointers in any order.  Then no further round of the
same sizes, in any order, calls `sbrk` or `mmap`. -/
theorem steady_state (cpus cpu : ℕ) (h₀ h h₁ h₂ : Heap Records) (hinit : Initial h₀)
    (before : List (Call × ℕ)) (hreach : Run (PinnedStep cpus cpu) h₀ before h)
    (first : List (ℕ × ℕ)) (hfirst : Run (Serves cpus cpu) h first h₁)
    (order : List ℕ) (horder : order.Perm (first.map Prod.snd))
    (hfree : freeAll h₁ cpu order = .ok h₂) (n : ℕ) :
    Steady cpus cpu (first.map Prod.fst) n h₂ := by
  have k : OneList cpu h := hreach.invariant (P := OneList cpu)
    (fun _ _ _ _ k hs => k.step hs) (OneList.of_initial hinit)
  cases hfirst with
  | nil => exact steady_nil cpus cpu n h₂
  | @cons _ t _ s q tr hstep hrest =>
    have rules := Serving.rules cpus cpu
    obtain ⟨held, hheld, v⟩ := rules.run hrest (k.serving (LiveBlocks.nil h) hstep)
    have hround : held.Perm (((s, q) :: tr).map Prod.swap) :=
      hheld.trans List.perm_append_comm
    obtain ⟨h', hfree', v'⟩ := rules.end_round v hround horder
    obtain rfl : h₂ = h' := Except.ok.inj (hfree.symm.trans hfree')
    exact v'.steady cpus n

/-- The heap of records before the first call. -/
def emptyRecords : Heap Records := ⟨⟨fun _ _ => 0, []⟩, .null, fun _ => false, []⟩

theorem initial_emptyRecords : Initial emptyRecords := ⟨rfl, rfl, rfl, fun _ => rfl⟩

/-- A block of 100 bytes is freed.  In the first round it is split for a request of 10 bytes,
and the system is asked for 90 bytes. -/
theorem steady_state_split : ∃ h₂ : Heap Records, h₂.created = [8192, 8226, 12288] ∧
    ∀ n, Steady 1 0 [10, 90] n h₂ := by
  obtain ⟨h, h₁, h₂, hreach, hfirst, hfree, hcreated⟩ : ∃ h h₁ h₂ : Heap Records,
      Run (PinnedStep 1 0) emptyRecords
        [(.malloc 100 (pinned 0 (some 4096) (some 8192)), 8216), (.free 0 8216, 0)] h ∧
      Run (Serves 1 0) h [(10, 8216), (90, 12312)] h₁ ∧
      freeAll h₁ 0 [12312, 8216] = .ok h₂ ∧ h₂.created = [8192, 8226, 12288] := by
    refine ⟨_, _, _, Run.cons ⟨⟨rfl, rfl, rfl, rfl⟩, ?_, rfl⟩
      (Run.cons ⟨rfl, ?_, rfl⟩ (Run.nil _)),
      Run.cons ⟨by decide, none, none, ⟨rfl, rfl, rfl, rfl⟩, ?_, rfl⟩
      (Run.cons ⟨by decide, none, some 12288, ⟨rfl, rfl, rfl, rfl⟩, ?_, rfl⟩ (Run.nil _)),
      rfl, rfl⟩
    · refine ⟨by decide, by decide, fun x _ hx => ?_, fun a ha => ?_⟩
      · rw [← Option.some.inj hx]
        decide
      · rw [← Option.some.inj ha]
        decide
    · exact ⟨by decide, Or.inr ⟨8192, by decide, rfl⟩⟩
    · refine ⟨by decide, by decide, fun x _ hx => ?_, fun a ha => ?_⟩
      · cases hx
      · cases ha
    · refine ⟨by decide, by decide, fun x _ hx => ?_, fun a ha => ?_⟩
      · cases hx
      · rw [← Option.some.inj ha]
        decide
  exact ⟨h₂, hcreated, fun n => steady_state 1 0 emptyRecords h h₁ h₂ initial_emptyRecords _
    hreach [(10, 8216), (90, 12312)] hfirst [12312, 8216] (by decide) hfree n⟩

end AdvancedMemory
end SystemsProjects

import SystemsProjects.Xv6.BufferCacheRuns

/-!
# The buffer cache is coherent

The invariant of the cache has three parts.  `Listed` is about the list of the buffers.  `Busy`
counts the users of each buffer, and says who has locked what and who waits for the disk: a
buffer without users is not locked, and a process that has locked a buffer and is not waiting
finds the contents of the block in it.  `Shows` says where the contents of a block are: in its
buffer, if there is one with `B_VALID`, and otherwise on the disk.

`Inv.step` shows that each step keeps it.  With `bread_latest` and `bget_least_recent` it gives
what the module before promises.
-/

namespace SystemsProjects
namespace Xv6
namespace Bio

open Lib Function

variable {P D : Type} {nbuf : ℕ}

/-! ## Who uses a buffer -/

/-- The buffer that counts the process without its having the lock, in `bread` or `brelse`. -/
def Call.wants : Call nbuf → Option (Fin nbuf)
  | .locking b => some b
  | .releasing b => some b
  | _ => none

/-- The call waits for the buffer. -/
def Call.waits (c : Call nbuf) (b : Fin nbuf) : Bool := c.wants = some b

/-- The number of these processes. -/
def waiters [Fintype P] (call : P → Call nbuf) (b : Fin nbuf) : ℕ :=
  ∑ p, if (call p).waits b then 1 else 0

/-- One process moves. -/
theorem waiters_update [Fintype P] [DecidableEq P] (call : P → Call nbuf) (p : P) (c : Call nbuf)
    (b : Fin nbuf) :
    waiters (update call p c) b + (if (call p).waits b then 1 else 0) =
      waiters call b + if c.waits b then 1 else 0 := by
  have hrest : ∑ q ∈ Finset.univ.erase p, (if (update call p c q).waits b then 1 else 0) =
      ∑ q ∈ Finset.univ.erase p, if (call q).waits b then 1 else 0 :=
    Finset.sum_congr rfl fun q hq => by rw [update_of_ne (Finset.ne_of_mem_erase hq)]
  rw [waiters, waiters, ← Finset.add_sum_erase _ _ (Finset.mem_univ p), hrest, update_self,
    ← Finset.add_sum_erase _ (fun q => if (call q).waits b then 1 else 0) (Finset.mem_univ p)]
  omega

section Busy

variable [DecidableEq P] [Fintype P]

/-- **Users, locks and the disk queue.** -/
structure Busy (buf : Fin nbuf → Buf P D) (queue : List (Fin nbuf)) (call : P → Call nbuf) :
    Prop where
  refs : ∀ b, (buf b).refcnt = waiters call b + if (buf b).lock = none then 0 else 1
  moving : ∀ p b, call p = .reading b ∨ call p = .writing b → (buf b).lock = some p
  reading : ∀ p b, call p = .reading b → (buf b).valid = false
  writing : ∀ p b, call p = .writing b → (buf b).dirty = true
  queued : ∀ b ∈ queue, ∃ p, (buf b).lock = some p ∧ (call p = .reading b ∨ call p = .writing b)
  nodup : queue.Nodup
  ready : ∀ p b, (buf b).lock = some p → (buf b).valid = false → call p = .reading b
  dirty : ∀ b, (buf b).dirty = true → (buf b).valid = true

variable {buf : Fin nbuf → Buf P D} {queue : List (Fin nbuf)} {call : P → Call nbuf} {p : P}
  {b : Fin nbuf} {r : Buf P D} {x : Call nbuf}

/-- A buffer counts the process that moves. -/
theorem Busy.refs_update (h : Busy buf queue call)
    (hb : r.refcnt + (if (call p).waits b then 1 else 0) +
        (if (buf b).lock = none then 0 else 1) =
      (buf b).refcnt + (if x.waits b then 1 else 0) + if r.lock = none then 0 else 1)
    (hothers : ∀ c, c ≠ b → x.waits c = (call p).waits c) (c : Fin nbuf) :
    (update buf b r c).refcnt = waiters (update call p x) c +
      if (update buf b r c).lock = none then 0 else 1 := by
  have hrefs := h.refs c
  have hmoved := waiters_update call p x c
  by_cases hc : c = b
  · subst hc
    rw [update_self]
    omega
  · rw [update_of_ne hc]
    rw [hothers c hc] at hmoved
    omega

omit [DecidableEq P] in
/-- Without users a buffer is not locked, and nobody waits for it. -/
theorem Busy.of_refcnt (h : Busy buf queue call) (hb : (buf b).refcnt = 0) :
    (buf b).lock = none ∧ waiters call b = 0 := by
  have hrefs := h.refs b
  rw [hb] at hrefs
  split at hrefs
  · rename_i hlock
    exact ⟨hlock, by omega⟩
  · omega

/-- `bget` finds the block. -/
theorem Busy.hit (h : Busy buf queue call) (hidle : call p = .idle) :
    Busy (update buf b { buf b with refcnt := (buf b).refcnt + 1 }) queue
      (update call p (.locking b)) := by
  obtain ⟨-, hmoving, hreading, hwriting, hqueued, hnodup, hready, hdirty⟩ := id h
  refine ⟨h.refs_update ?_ fun c hc => ?_, ?_, ?_, ?_, ?_, hnodup, ?_, ?_⟩
  · simp [Call.waits, Call.wants, hidle]
  · simp [Call.waits, Call.wants, hidle, Ne.symm hc]
  all_goals grind

/-- `bget` takes an unused buffer. -/
theorem Busy.recycle (h : Busy buf queue call) (hidle : call p = .idle)
    (hb : (buf b).refcnt = 0) (dev blockno : ℕ) :
    Busy (update buf b { buf b with
      dev := dev, blockno := blockno, valid := false, dirty := false, refcnt := 1 }) queue
      (update call p (.locking b)) := by
  obtain ⟨hlock, -⟩ := h.of_refcnt hb
  obtain ⟨-, hmoving, hreading, hwriting, hqueued, hnodup, hready, hdirty⟩ := id h
  refine ⟨h.refs_update ?_ fun c hc => ?_, ?_, ?_, ?_, ?_, hnodup, ?_, ?_⟩
  · simp [Call.waits, Call.wants, hidle, hb, hlock]
  · simp [Call.waits, Call.wants, hidle, Ne.symm hc]
  all_goals grind

/-- The lock of a buffer with the contents of its block. -/
theorem Busy.lockValid (h : Busy buf queue call) (hcall : call p = .locking b)
    (hlock : (buf b).lock = none) (hvalid : (buf b).valid = true) :
    Busy (update buf b { buf b with lock := some p }) queue (update call p .idle) := by
  obtain ⟨-, hmoving, hreading, hwriting, hqueued, hnodup, hready, hdirty⟩ := id h
  refine ⟨h.refs_update ?_ fun c hc => ?_, ?_, ?_, ?_, ?_, hnodup, ?_, ?_⟩
  · simp [Call.waits, Call.wants, hcall, hlock]
  · simp [Call.waits, Call.wants, hcall, Ne.symm hc]
  all_goals grind

/-- The lock of a buffer that has to be read. -/
theorem Busy.lockInvalid (h : Busy buf queue call) (hcall : call p = .locking b)
    (hlock : (buf b).lock = none) (hvalid : (buf b).valid = false) :
    Busy (update buf b { buf b with lock := some p }) (queue ++ [b])
      (update call p (.reading b)) := by
  have hnotin : b ∉ queue := by
    intro hmem
    obtain ⟨q, hq, -⟩ := h.queued b hmem
    rw [hlock] at hq
    cases hq
  obtain ⟨-, hmoving, hreading, hwriting, hqueued, hnodup, hready, hdirty⟩ := id h
  refine ⟨h.refs_update ?_ fun c hc => ?_, ?_, ?_, ?_, ?_, ?_, ?_, ?_⟩
  · simp [Call.waits, Call.wants, hcall, hlock]
  · simp [Call.waits, Call.wants, hcall, Ne.symm hc]
  all_goals grind

/-- The disk has written or read the first buffer of its queue. -/
theorem Busy.intr (h : Busy buf (b :: queue) call) (hlock : (buf b).lock = some p)
    (hr : r.refcnt = (buf b).refcnt ∧ r.lock = (buf b).lock) (hvalid : r.valid = true) :
    Busy (update buf b r) queue (update call p .idle) := by
  obtain ⟨-, hmoving, hreading, hwriting, hqueued, hnodup, hready, hdirty⟩ := id h
  have hcall : call p = .reading b ∨ call p = .writing b := by
    obtain ⟨q, hq, hcall⟩ := hqueued b List.mem_cons_self
    rw [Option.some.inj (hlock.symm.trans hq)]
    exact hcall
  have hwaits : ∀ c, (call p).waits c = false := by
    intro c
    rcases hcall with hcall | hcall <;> simp [Call.waits, Call.wants, hcall]
  refine ⟨h.refs_update ?_ fun c _ => ?_, ?_, ?_, ?_, ?_, ?_, ?_, ?_⟩
  · rw [hwaits b, hr.1, hr.2]
    simp [Call.waits, Call.wants]
  · rw [hwaits c]
    simp [Call.waits, Call.wants]
  all_goals grind

omit [DecidableEq P] in
/-- The process that has locked a buffer changes it. -/
theorem Busy.change (h : Busy buf queue call) (hidle : call p = .idle)
    (hlock : (buf b).lock = some p) (hr : r.refcnt = (buf b).refcnt ∧ r.lock = (buf b).lock)
    (hvalid : r.valid = (buf b).valid) : Busy (update buf b r) queue call := by
  obtain ⟨hrefs, hmoving, hreading, hwriting, hqueued, hnodup, hready, hdirty⟩ := id h
  refine ⟨?_, ?_, ?_, ?_, ?_, hnodup, ?_, ?_⟩
  all_goals grind

/-- `bwrite` puts the buffer in the queue of the disk. -/
theorem Busy.bwrite (h : Busy buf queue call) (hidle : call p = .idle)
    (hlock : (buf b).lock = some p) :
    Busy (update buf b { buf b with dirty := true }) (queue ++ [b])
      (update call p (.writing b)) := by
  have hnotin : b ∉ queue := by
    intro hmem
    obtain ⟨q, hq, hcall⟩ := h.queued b hmem
    rw [← Option.some.inj (hlock.symm.trans hq), hidle] at hcall
    rcases hcall with hcall | hcall <;> cases hcall
  obtain ⟨-, hmoving, hreading, hwriting, hqueued, hnodup, hready, hdirty⟩ := id h
  refine ⟨h.refs_update ?_ fun c hc => ?_, ?_, ?_, ?_, ?_, ?_, ?_, ?_⟩
  · simp [Call.waits, Call.wants, hidle]
  · simp [Call.waits, Call.wants, hidle]
  all_goals grind

/-- `releasesleep` -/
theorem Busy.release (h : Busy buf queue call) (hidle : call p = .idle)
    (hlock : (buf b).lock = some p) :
    Busy (update buf b { buf b with lock := none }) queue (update call p (.releasing b)) := by
  obtain ⟨-, hmoving, hreading, hwriting, hqueued, hnodup, hready, hdirty⟩ := id h
  refine ⟨h.refs_update ?_ fun c hc => ?_, ?_, ?_, ?_, ?_, hnodup, ?_, ?_⟩
  · simp [Call.waits, Call.wants, hidle, hlock]
  · simp [Call.waits, Call.wants, hidle, Ne.symm hc]
  all_goals grind

/-- The rest of `brelse`. -/
theorem Busy.unref (h : Busy buf queue call) (hcall : call p = .releasing b) :
    (buf b).refcnt ≠ 0 ∧ Busy (update buf b { buf b with refcnt := (buf b).refcnt - 1 }) queue
      (update call p .idle) := by
  have hpos : (buf b).refcnt ≠ 0 := by
    have hmoved := waiters_update call p .idle b
    have hrefs := h.refs b
    simp [Call.waits, Call.wants, hcall] at hmoved
    omega
  obtain ⟨-, hmoving, hreading, hwriting, hqueued, hnodup, hready, hdirty⟩ := id h
  refine ⟨hpos, h.refs_update ?_ fun c hc => ?_, ?_, ?_, ?_, ?_, hnodup, ?_, ?_⟩
  · simp [Call.waits, Call.wants, hcall]
    omega
  · simp [Call.waits, Call.wants, hcall, Ne.symm hc]
  all_goals grind

end Busy

/-! ## What a block contains -/

section Shows

/-- **The contents of the blocks**, which are in the buffer if there is one, and otherwise on
the disk.  A buffer that nobody has locked and that is not dirty is the same as the disk. -/
structure Shows (buf : Fin nbuf → Buf P D) (disk content : ℕ × ℕ → D) : Prop where
  devs : ∀ b, (buf b).dev < 2
  cached : ∀ b, (buf b).valid = true → (buf b).data = content ((buf b).dev, (buf b).blockno)
  stored : ∀ k : ℕ × ℕ, k.1 < 2 →
    (∀ b, (buf b).valid = true → ((buf b).dev, (buf b).blockno) ≠ k) → disk k = content k
  clean : ∀ b, (buf b).valid = true → (buf b).dirty = false → (buf b).lock = none →
    disk ((buf b).dev, (buf b).blockno) = (buf b).data

/-- No block is in two buffers. -/
def Single (buf : Fin nbuf → Buf P D) : Prop :=
  ∀ a b, (buf a).InUse → (buf b).InUse → (buf a).dev = (buf b).dev →
    (buf a).blockno = (buf b).blockno → a = b

variable {buf : Fin nbuf → Buf P D} {disk content : ℕ × ℕ → D} {b : Fin nbuf} {r : Buf P D}

theorem Shows.place_eq (h : Shows buf disk content) (b : Fin nbuf) :
    Sys.place (buf b) = ((buf b).dev, (buf b).blockno) := by
  rw [Sys.place, Nat.mod_eq_of_lt (h.devs b)]

/-- A buffer keeps its contents, and what is not dirty and not locked is on the disk. -/
theorem Shows.keep (h : Shows buf disk content) (hdev : r.dev = (buf b).dev)
    (hblockno : r.blockno = (buf b).blockno) (hvalid : r.valid = (buf b).valid)
    (hdata : r.data = (buf b).data)
    (hclean : r.valid = true → r.dirty = false → r.lock = none →
      disk (r.dev, r.blockno) = r.data) : Shows (update buf b r) disk content := by
  obtain ⟨hdevs, hcached, hstored, hclean'⟩ := h
  refine ⟨?_, ?_, fun k hk hnone => hstored k hk fun a ha => ?_, ?_⟩
  · grind
  · grind
  · have hne := hnone a
    grind
  · grind

/-- `bget` takes a buffer whose contents are on the disk. -/
theorem Shows.recycle (h : Shows buf disk content) {dev blockno : ℕ} (hdev : dev < 2)
    (hdirty : (buf b).dirty = false) (hlock : (buf b).lock = none) :
    Shows (update buf b { buf b with
      dev := dev, blockno := blockno, valid := false, dirty := false, refcnt := 1 })
      disk content := by
  obtain ⟨hdevs, hcached, hstored, hclean⟩ := h
  refine ⟨?_, ?_, fun k hk hnone => ?_, ?_⟩
  · grind
  · grind
  · by_cases hold : (buf b).valid = true ∧ ((buf b).dev, (buf b).blockno) = k
    · obtain ⟨hvalid, rfl⟩ := hold
      rw [hclean b hvalid hdirty hlock, hcached b hvalid]
    · refine hstored k hk fun a ha => ?_
      have hne := hnone a
      grind
  · grind

/-- The disk has written the buffer. -/
theorem Shows.wrote (h : Shows buf disk content) (hone : Single buf)
    (hvalid : (buf b).valid = true) :
    Shows (update buf b { buf b with valid := true, dirty := false })
      (update disk ((buf b).dev, (buf b).blockno) (buf b).data) content := by
  obtain ⟨hdevs, hcached, hstored, hclean⟩ := h
  have hother : ∀ a, a ≠ b → (buf a).valid = true →
      ((buf a).dev, (buf a).blockno) ≠ ((buf b).dev, (buf b).blockno) := by
    intro a hab ha heq
    obtain ⟨hdev, hblockno⟩ := Prod.mk.inj heq
    exact hab (hone a b (Or.inr (Or.inl ha)) (Or.inr (Or.inl hvalid)) hdev hblockno)
  refine ⟨?_, ?_, fun k hk hnone => ?_, ?_⟩
  · grind
  · grind
  · have hne := hnone b
    rw [update_self] at hne
    rw [update_of_ne (Ne.symm (hne rfl))]
    refine hstored k hk fun a ha => ?_
    have hne' := hnone a
    grind
  · intro a ha hdirty hlock
    by_cases hab : a = b
    · subst hab
      simp only [update_self]
    · rw [update_of_ne hab] at ha hdirty hlock ⊢
      rw [update_of_ne (hother a hab ha)]
      exact hclean a ha hdirty hlock

/-- The disk has read the block. -/
theorem Shows.read (h : Shows buf disk content) (hone : Single buf)
    (huse : (buf b).InUse) (hvalid : (buf b).valid = false) :
    disk ((buf b).dev, (buf b).blockno) = content ((buf b).dev, (buf b).blockno) ∧
      Shows (update buf b { buf b with
        valid := true, data := disk ((buf b).dev, (buf b).blockno) }) disk content := by
  obtain ⟨hdevs, hcached, hstored, hclean⟩ := h
  have hdisk : disk ((buf b).dev, (buf b).blockno) = content ((buf b).dev, (buf b).blockno) := by
    refine hstored _ (hdevs b) fun a ha heq => ?_
    obtain ⟨hdev, hblockno⟩ := Prod.mk.inj heq
    have hab := hone a b (Or.inr (Or.inl ha)) huse hdev hblockno
    rw [hab, hvalid] at ha
    cases ha
  refine ⟨hdisk, ?_, ?_, fun k hk hnone => ?_, ?_⟩
  · grind
  · grind
  · refine hstored k hk fun a ha => ?_
    have hne := hnone a
    grind
  · grind

/-- A locked buffer gets new contents. -/
theorem Shows.modify (h : Shows buf disk content) (hone : Single buf)
    (hvalid : (buf b).valid = true) (hlock : (buf b).lock ≠ none) (d : D) :
    Shows (update buf b { buf b with data := d }) disk
      (update content ((buf b).dev, (buf b).blockno) d) := by
  obtain ⟨hdevs, hcached, hstored, hclean⟩ := h
  refine ⟨?_, fun a ha => ?_, fun k hk hnone => ?_, ?_⟩
  · grind
  · by_cases hab : a = b
    · subst hab
      simp only [update_self]
    · rw [update_of_ne hab] at ha ⊢
      have hne : ((buf a).dev, (buf a).blockno) ≠ ((buf b).dev, (buf b).blockno) := by
        intro heq
        obtain ⟨hdev, hblockno⟩ := Prod.mk.inj heq
        exact hab (hone a b (Or.inr (Or.inl ha)) (Or.inr (Or.inl hvalid)) hdev hblockno)
      rw [update_of_ne hne]
      exact hcached a ha
  · have hne := hnone b
    rw [update_self] at hne
    rw [update_of_ne (Ne.symm (hne hvalid))]
    refine hstored k hk fun a ha => ?_
    have hne' := hnone a
    grind
  · grind

end Shows

namespace Out

/-- The contents of the blocks after a step. -/
def write (content : ℕ × ℕ → D) : Out D nbuf → ℕ × ℕ → D
  | .put dev blockno d => update content (dev, blockno) d
  | _ => content

/-- The buffers by their last use, after a step. -/
def reorder (l : List (Fin nbuf)) : Out D nbuf → List (Fin nbuf)
  | .freed b => b :: l.erase b
  | _ => l

end Out

namespace Sys

/-- **What was last written to the blocks** in a run. -/
def contents (disk : ℕ × ℕ → D) (tr : List (Event P D nbuf × Out D nbuf)) : ℕ × ℕ → D :=
  tr.foldl (fun content r => r.2.write content) disk

variable [DecidableEq P] [Fintype P]

/-- The invariant of the cache. -/
structure Inv (s : Sys P D nbuf) (l : List (Fin nbuf)) (content : ℕ × ℕ → D) : Prop where
  listed : Listed s.cache l
  busy : Busy s.cache.buf s.queue s.call
  shows : Shows s.cache.buf s.disk content

variable {s s' : Sys P D nbuf} {l : List (Fin nbuf)} {content : ℕ × ℕ → D} {e : Event P D nbuf}
  {o : Out D nbuf} {p : P} {b : Fin nbuf}

omit [DecidableEq P] in
theorem Inv.single (h : s.Inv l content) : Single s.cache.buf :=
  fun _ _ ha hb hdev hblockno => h.listed.eq_of_block ha hb hdev hblockno

omit [DecidableEq P] in
/-- A locked buffer is in use. -/
theorem Inv.inUse_of_lock (h : s.Inv l content) (hlock : (s.cache.buf b).lock ≠ none) :
    (s.cache.buf b).InUse := by
  have hrefs := h.busy.refs b
  rw [if_neg hlock] at hrefs
  exact Or.inl (by omega)

/-- **`bget`.** -/
theorem Inv.bread (h : s.Inv l content) {dev blockno : ℕ} (hdev : dev < 2)
    (hidle : s.call p = .idle) {c : Cache P D nbuf}
    (hget : s.cache.bget dev blockno = .ok (c, b)) :
    Inv { s with cache := c, call := update s.call p (.locking b) } l content := by
  rw [h.listed.bget_eq] at hget
  cases hfind : l.find? (s.cache.has dev blockno) with
  | some a =>
    rw [hfind] at hget
    obtain ⟨rfl, rfl⟩ := Prod.mk.inj (Except.ok.inj hget)
    have hhas := List.find?_some hfind
    rw [Cache.has, decide_eq_true_iff] at hhas
    refine ⟨h.listed.set rfl rfl fun _ => ?_, h.busy.hit hidle,
      h.shows.keep rfl rfl rfl rfl (h.shows.clean a)⟩
    rw [hhas.1, hhas.2]
    exact hfind
  | none =>
    rw [hfind] at hget
    simp only at hget
    cases hunused : l.reverse.find? s.cache.unused with
    | none =>
      rw [hunused] at hget
      cases hget
    | some a =>
      rw [hunused] at hget
      obtain ⟨rfl, rfl⟩ := Prod.mk.inj (Except.ok.inj hget)
      have hfree := List.find?_some hunused
      rw [Cache.unused, decide_eq_true_iff] at hfree
      exact ⟨h.listed.recycle hfind, h.busy.recycle hidle hfree.1 dev blockno,
        h.shows.recycle hdev hfree.2 (h.busy.of_refcnt hfree.1).1⟩

/-- **One step**, and what `bread` returns. -/
theorem Inv.step (h : s.Inv l content) (hallowed : s.Allowed e) (hstep : Step s e o s') :
    Inv s' (o.reorder l) (o.write content) ∧
      ∀ dev blockno d, o = .got dev blockno d → d = content (dev, blockno) := by
  have hsilent : ∀ dev blockno d, (Out.none : Out D nbuf) = .got dev blockno d →
      d = content (dev, blockno) := by
    intro dev blockno d heq
    cases heq
  cases hstep.moves with
  | bread p dev blockno c b hidle hget => exact ⟨h.bread hallowed.1 hidle hget, hsilent⟩
  | lockValid p b hcall hlock hvalid =>
    have huse : (s.cache.buf b).InUse := Or.inr (Or.inl hvalid)
    refine ⟨⟨h.listed.set_of_inUse rfl rfl huse, h.busy.lockValid hcall hlock hvalid,
      h.shows.keep rfl rfl rfl rfl fun _ _ hl => ?_⟩, fun dev blockno d heq => ?_⟩
    · cases hl
    · obtain ⟨rfl, rfl, rfl⟩ := Out.got.inj heq
      exact h.shows.cached b hvalid
  | lockInvalid p b hcall hlock hvalid =>
    have huse : (s.cache.buf b).InUse := by
      have hrefs := h.busy.refs b
      have hmoved := waiters_update s.call p .idle b
      simp [Call.waits, Call.wants, hcall] at hmoved
      exact Or.inl (by omega)
    refine ⟨⟨h.listed.set_of_inUse rfl rfl huse, h.busy.lockInvalid hcall hlock hvalid,
      h.shows.keep rfl rfl rfl rfl fun _ _ hl => ?_⟩, hsilent⟩
    cases hl
  | wrote p b queue hqueue hlock hdirty =>
    have hbusy := h.busy
    rw [hqueue] at hbusy
    have huse : (s.cache.buf b).InUse := Or.inr (Or.inr hdirty)
    refine ⟨⟨h.listed.set_of_inUse rfl rfl huse, hbusy.intr hlock ⟨rfl, rfl⟩ rfl, ?_⟩, hsilent⟩
    rw [h.shows.place_eq]
    exact h.shows.wrote h.single (h.busy.dirty b hdirty)
  | read p b queue hqueue hlock hdirty =>
    have hbusy := h.busy
    rw [hqueue] at hbusy
    have huse : (s.cache.buf b).InUse :=
      h.inUse_of_lock (by rw [hlock]; exact Option.some_ne_none p)
    have hvalid : (s.cache.buf b).valid = false := by
      obtain ⟨q, -, hcall⟩ := hbusy.queued b List.mem_cons_self
      rcases hcall with hcall | hcall
      · exact hbusy.reading q b hcall
      · rw [hbusy.writing q b hcall] at hdirty
        cases hdirty
    obtain ⟨hdisk, hshows⟩ := h.shows.read h.single huse hvalid
    rw [h.shows.place_eq] at hstep ⊢
    refine ⟨⟨h.listed.set_of_inUse rfl rfl huse, hbusy.intr hlock ⟨rfl, rfl⟩ rfl, hshows⟩,
      fun dev blockno d heq => ?_⟩
    obtain ⟨rfl, rfl, rfl⟩ := Out.got.inj heq
    exact hdisk
  | modify p b d hidle hlock =>
    have hne : (s.cache.buf b).lock ≠ none := by
      rw [hlock]
      exact Option.some_ne_none p
    have hvalid : (s.cache.buf b).valid = true := by
      by_contra hinvalid
      have hcall := h.busy.ready p b hlock (Bool.not_eq_true _ ▸ hinvalid)
      rw [hidle] at hcall
      cases hcall
    exact ⟨⟨h.listed.set_of_inUse rfl rfl (h.inUse_of_lock hne),
      h.busy.change hidle hlock ⟨rfl, rfl⟩ rfl, h.shows.modify h.single hvalid hne d⟩,
      fun dev blockno d' heq => by cases heq⟩
  | logWrite p b hidle hlock =>
    have hne : (s.cache.buf b).lock ≠ none := by
      rw [hlock]
      exact Option.some_ne_none p
    refine ⟨⟨h.listed.set_of_inUse rfl rfl (h.inUse_of_lock hne),
      h.busy.change hidle hlock ⟨rfl, rfl⟩ rfl,
      h.shows.keep rfl rfl rfl rfl fun _ hd _ => ?_⟩, hsilent⟩
    cases hd
  | bwrite p b hidle hlock =>
    have hne : (s.cache.buf b).lock ≠ none := by
      rw [hlock]
      exact Option.some_ne_none p
    refine ⟨⟨h.listed.set_of_inUse rfl rfl (h.inUse_of_lock hne), h.busy.bwrite hidle hlock,
      h.shows.keep rfl rfl rfl rfl fun _ hd _ => ?_⟩, hsilent⟩
    cases hd
  | release p b hidle hlock =>
    have hne : (s.cache.buf b).lock ≠ none := by
      rw [hlock]
      exact Option.some_ne_none p
    refine ⟨⟨h.listed.set_of_inUse rfl rfl (h.inUse_of_lock hne), h.busy.release hidle hlock,
      h.shows.keep rfl rfl rfl rfl fun hvalid hdirty _ => ?_⟩, hsilent⟩
    rcases hallowed with hd | hsame
    · rw [hd] at hdirty
      cases hdirty
    · rw [h.shows.place_eq] at hsame
      exact hsame.symm
  | unref p b hcall =>
    obtain ⟨hpos, hbusy⟩ := h.busy.unref hcall
    have hlisted := h.listed.unref hpos
    have hbuf : (s.cache.unref b).buf =
        update s.cache.buf b { s.cache.buf b with refcnt := (s.cache.buf b).refcnt - 1 } := by
      rw [Cache.unref]
      split <;> rfl
    have hwrite : (if (s.cache.buf b).refcnt = 1 then Out.freed b else .none : Out D nbuf).write
        content = content := by
      split <;> rfl
    have hreorder : (if (s.cache.buf b).refcnt = 1 then Out.freed b else .none : Out D nbuf).reorder
        l = Listed.recent s.cache b l := by
      rw [Listed.recent]
      split <;> rfl
    rw [hwrite, hreorder]
    refine ⟨⟨hlisted, ?_, ?_⟩, fun dev blockno d heq => ?_⟩
    · change Busy (s.cache.unref b).buf s.queue _
      rw [hbuf]
      exact hbusy
    · change Shows (s.cache.unref b).buf s.disk content
      rw [hbuf]
      exact h.shows.keep rfl rfl rfl rfl (h.shows.clean b)
    · split at heq
      · cases heq
      · cases heq

/-! ## Runs -/

omit [DecidableEq P] in
theorem inv_boot (data : Fin nbuf → D) (disk : ℕ × ℕ → D) :
    (boot data disk : Sys P D nbuf).Inv (List.finRange nbuf).reverse disk where
  listed := Listed.binit data
  busy := by
    refine ⟨fun b => ?_, fun p b h => ?_, fun p b h => ?_, fun p b h => ?_, fun b hb => ?_,
      List.nodup_nil, fun p b h => ?_, fun b h => ?_⟩
    · simp [boot, Cache.binit, waiters, Call.waits, Call.wants]
    · rcases h with h | h <;> cases h
    · cases h
    · cases h
    · cases hb
    · cases h
    · cases h
  shows := ⟨fun _ => Nat.zero_lt_two, fun _ h => Bool.noConfusion h, fun _ _ _ => rfl,
    fun _ h => Bool.noConfusion h⟩

theorem inv_run {tr : List (Event P D nbuf × Out D nbuf)}
    (hrun : Run (Guarded Allowed Step) s tr s') :
    ∀ {l content}, s.Inv l content → s'.Inv (tr.foldl (fun l r => r.2.reorder l) l)
      (tr.foldl (fun content r => r.2.write content) content) := by
  induction hrun with
  | nil s => exact fun h => h
  | cons hstep _ ih => exact fun h => ih (h.step hstep.1 hstep.2).1

variable {data : Fin nbuf → D} {disk : ℕ × ℕ → D} {tr : List (Event P D nbuf × Out D nbuf)}

/-- **The cache is coherent.**  In every run of any processes that share it, a block is locked
by one process at a time and is in one buffer then, and what `bread` returns is what was last
written to the block, or what was on the disk at the beginning. -/
theorem bread_latest (hrun : Run (Guarded Allowed Step) (boot data disk) tr s) :
    (∀ a b p q, (s.cache.buf a).lock = some p → (s.cache.buf b).lock = some q →
      s.block a = s.block b → a = b ∧ p = q) ∧
    ∀ e s' dev blockno d, s.Allowed e → Step s e (.got dev blockno d) s' →
      d = contents disk tr (dev, blockno) := by
  have h := inv_run hrun (inv_boot data disk)
  refine ⟨fun a b p q ha hb hblock => ?_, fun e s' dev blockno d hallowed hstep => ?_⟩
  · obtain ⟨hdev, hblockno⟩ := Prod.mk.inj hblock
    have hab := h.single a b (h.inUse_of_lock (by rw [ha]; exact Option.some_ne_none p))
      (h.inUse_of_lock (by rw [hb]; exact Option.some_ne_none q)) hdev hblockno
    rw [hab, hb] at ha
    exact ⟨hab, (Option.some.inj ha).symm⟩
  · exact (h.step hallowed hstep).2 dev blockno d rfl

instance [DecidableEq D] (s : Sys P D nbuf) (e : Event P D nbuf) : Decidable (s.Allowed e) :=
  match e with
  | .bread _ dev blockno => inferInstanceAs (Decidable (dev < 2 ∧ blockno < fsSize))
  | .release _ b => inferInstanceAs (Decidable ((s.cache.buf b).dirty = true ∨
      (s.cache.buf b).data = s.disk (place (s.cache.buf b))))
  | .lock _ => inferInstanceAs (Decidable True)
  | .intr => inferInstanceAs (Decidable True)
  | .modify _ _ _ => inferInstanceAs (Decidable True)
  | .logWrite _ _ => inferInstanceAs (Decidable True)
  | .bwrite _ _ => inferInstanceAs (Decidable True)
  | .unref _ => inferInstanceAs (Decidable True)

/-- Process 0 changes a block, marks it and gives it back; process 1 finds it changed. -/
theorem bread_latest_twoProcesses :
    ∃ (tr : List (Event (Fin 2) ℕ 3 × Out ℕ 3)) (s : Sys (Fin 2) ℕ 3),
      Run (Guarded Allowed Step) (boot (fun _ => 0) fun _ => 4) tr s ∧
      contents (fun _ => 4) tr (1, 5) = 7 ∧
      (∀ a b p q, (s.cache.buf a).lock = some p → (s.cache.buf b).lock = some q →
        s.block a = s.block b → a = b ∧ p = q) ∧
      ∀ e s' dev blockno d, s.Allowed e → Step s e (.got dev blockno d) s' →
        d = contents (fun _ => 4) tr (dev, blockno) := by
  obtain ⟨tr, s, hrun, hobs⟩ := Run.exists_of_play_guarded (f := step) (c := Allowed)
    (s := (boot (fun _ => 0) fun _ => 4 : Sys (Fin 2) ℕ 3))
    (l := [.bread 0 1 5, .lock 0, .intr, .modify 0 0 7, .logWrite 0 0, .bread 1 1 5,
      .release 0 0, .lock 1, .unref 0])
    (fun r => (contents (fun _ => 4) r.2 (1, 5), (r.1.cache.buf 0).lock))
    (v := (7, some 1)) (by decide +kernel)
  exact ⟨tr, s, hrun, congrArg Prod.fst hobs, bread_latest hrun⟩

omit [DecidableEq P] in
/-- A buffer that `bget` may not take is dirty, locked, or wanted by a process. -/
theorem Inv.taken (h : s.Inv l content) {b : Fin nbuf} (hused : s.cache.unused b = false) :
    (s.cache.buf b).dirty = true ∨ (s.cache.buf b).lock ≠ none ∨
      ∃ p, (s.call p).wants = some b := by
  by_cases hdirty : (s.cache.buf b).dirty = true
  · exact Or.inl hdirty
  · refine Or.inr ?_
    by_cases hlock : (s.cache.buf b).lock = none
    · refine Or.inr ?_
      rw [Cache.unused, decide_eq_false_iff_not, not_and_or] at hused
      have hrefs := h.busy.refs b
      rw [if_pos hlock, Nat.add_zero] at hrefs
      rcases hused with hne | hclean
      · rw [hrefs, waiters] at hne
        obtain ⟨p, -, hp⟩ := Finset.exists_ne_zero_of_sum_ne_zero hne
        refine ⟨p, by_contra fun hno => hp (if_neg ?_)⟩
        rwa [Call.waits, decide_eq_true_iff]
      · exact absurd (Bool.not_eq_true _ ▸ hdirty) hclean
    · exact Or.inl hlock

end Sys

end Bio
end Xv6
end SystemsProjects

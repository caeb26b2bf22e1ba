import SystemsProjects.Lib.DoublyLinked
import SystemsProjects.Lib.Loop

/-!
# The list of the buffer cache

The buffers of the cache are in a list with links in both directions, with the most recently
used one at its head.  `bget` looks for a block from the head on; if the block is not there, it
takes the last buffer that nobody uses and that need not be written.  `brelse` moves a buffer to
the head when its last user has given it back.

`Listed` says what the list is like: it has all the buffers, and a buffer that is in use, or
whose contents count for something, is the first one with its block.  So there are never two
copies of a block.  Before the first use all buffers have the block 0 of device 0, and it is
the order of the list that makes the difference there.
-/

namespace SystemsProjects
namespace Xv6
namespace Bio

open Lib Function

/-- `struct buf`, without its links.  The lock holds the process that has locked it. -/
structure Buf (P D : Type) where
  dev : ℕ
  blockno : ℕ
  valid : Bool
  dirty : Bool
  refcnt : ℕ
  lock : Option P
  data : D

/-- `bcache`: the buffers, and the links of the list; the header is `none`. -/
structure Cache (P D : Type) (nbuf : ℕ) where
  buf : Fin nbuf → Buf P D
  links : Links (Option (Fin nbuf))

/-- Why `bget` does not return. -/
inductive Stop where
  | timeout
  | noBuffers
  deriving DecidableEq

variable {P D : Type} {nbuf : ℕ}

namespace Cache

/-- A buffer with other contents. -/
def set (c : Cache P D nbuf) (b : Fin nbuf) (r : Buf P D) : Cache P D nbuf :=
  { c with buf := update c.buf b r }

@[simp] theorem links_set (c : Cache P D nbuf) (b : Fin nbuf) (r : Buf P D) :
    (c.set b r).links = c.links := rfl

@[simp] theorem buf_set_self (c : Cache P D nbuf) (b : Fin nbuf) (r : Buf P D) :
    (c.set b r).buf b = r := update_self _ _ _

theorem buf_set_of_ne (c : Cache P D nbuf) {a b : Fin nbuf} (h : a ≠ b) (r : Buf P D) :
    (c.set b r).buf a = c.buf a := update_of_ne h _ _

/-- `binit`: `data` is what is in the memory of the buffers. -/
def binit (data : Fin nbuf → D) : Cache P D nbuf where
  buf b := ⟨0, 0, false, false, 0, none, data b⟩
  links := (List.finRange nbuf).foldl (fun m b => m.pushFront none (some b))
    ⟨fun _ => none, fun _ => none⟩

/-- The loops of `bget`: from the header along the links to the first buffer that passes the
test. -/
def scan (link : Option (Fin nbuf) → Option (Fin nbuf)) (test : Fin nbuf → Bool) :
    Except Stop (Option (Fin nbuf)) :=
  loop Stop.timeout (fun a => match a with
    | none => .ok (.inr none)
    | some b => if test b then .ok (.inr (some b)) else .ok (.inl (link (some b))))
    (nbuf + 1) (link none)

/-- `b->dev == dev && b->blockno == blockno` -/
def has (c : Cache P D nbuf) (dev blockno : ℕ) (b : Fin nbuf) : Bool :=
  (c.buf b).dev = dev ∧ (c.buf b).blockno = blockno

/-- `b->refcnt == 0 && (b->flags & B_DIRTY) == 0` -/
def unused (c : Cache P D nbuf) (b : Fin nbuf) : Bool :=
  (c.buf b).refcnt = 0 ∧ (c.buf b).dirty = false

/-- `bget` up to where it gives up the lock of the cache. -/
def bget (c : Cache P D nbuf) (dev blockno : ℕ) : Except Stop (Cache P D nbuf × Fin nbuf) := do
  match ← scan c.links.next (c.has dev blockno) with
  | some b => pure (c.set b { c.buf b with refcnt := (c.buf b).refcnt + 1 }, b)
  | none =>
    match ← scan c.links.prev c.unused with
    | some b => pure (c.set b { c.buf b with
        dev := dev, blockno := blockno, valid := false, dirty := false, refcnt := 1 }, b)
    | none => .error .noBuffers

/-- `brelse` behind `releasesleep`. -/
def unref (c : Cache P D nbuf) (b : Fin nbuf) : Cache P D nbuf :=
  let c := c.set b { c.buf b with refcnt := (c.buf b).refcnt - 1 }
  if (c.buf b).refcnt = 0 then
    { c with links := (c.links.unlink (some b)).pushFront none (some b) }
  else c

end Cache

/-! ## The list -/

/-- The buffer is used by a process, or its contents count for something. -/
def Buf.InUse (r : Buf P D) : Prop := r.refcnt ≠ 0 ∨ r.valid = true ∨ r.dirty = true

/-- **The list of the buffers.**  A buffer in use is the first one with its block. -/
structure Listed (c : Cache P D nbuf) (l : List (Fin nbuf)) : Prop where
  deque : Deque c.links none (l.map some)
  all : ∀ b, b ∈ l
  first : ∀ b, (c.buf b).InUse → l.find? (c.has (c.buf b).dev (c.buf b).blockno) = some b

namespace Listed

variable {c : Cache P D nbuf} {l : List (Fin nbuf)} {a b : Fin nbuf} {r : Buf P D}
  {dev blockno : ℕ}

theorem nodup (h : Listed c l) : l.Nodup :=
  List.Nodup.of_map _ (List.nodup_cons.mp h.deque.nodup).2

/-- **There is one copy of a block.** -/
theorem eq_of_block (h : Listed c l) (ha : (c.buf a).InUse) (hb : (c.buf b).InUse)
    (hdev : (c.buf a).dev = (c.buf b).dev) (hblockno : (c.buf a).blockno = (c.buf b).blockno) :
    a = b := by
  have hfirst := h.first a ha
  rw [hdev, hblockno, h.first b hb] at hfirst
  exact (Option.some.inj hfirst).symm

/-- A loop of `bget` returns the first buffer of the list that passes the test. -/
theorem scan_eq {link : Option (Fin nbuf) → Option (Fin nbuf)} {test : Fin nbuf → Bool}
    (hlink : Visits none link (link none) (l.map some)) (hlength : l.length ≤ nbuf) :
    Cache.scan link test = .ok (l.find? test) := by
  suffices hall : ∀ (l : List (Fin nbuf)) (fuel : ℕ) (p : Option (Fin nbuf)),
      Visits none link p (l.map some) → l.length < fuel →
      loop Stop.timeout (fun a => match a with
        | none => .ok (.inr none)
        | some b => if test b then .ok (.inr (some b)) else .ok (.inl (link (some b))))
        fuel p = .ok (l.find? test) from hall l _ _ hlink (Nat.lt_succ_of_le hlength)
  intro l
  induction l with
  | nil =>
    intro fuel p hp hfuel
    obtain ⟨fuel, rfl⟩ := Nat.exists_eq_succ_of_ne_zero (Nat.ne_of_gt hfuel)
    refine loop_of_leave ?_
    rw [show p = none from hp]
    rfl
  | cons b l ih =>
    intro fuel p hp hfuel
    obtain ⟨fuel, rfl⟩ := Nat.exists_eq_succ_of_ne_zero (Nat.ne_of_gt (Nat.zero_lt_of_lt hfuel))
    obtain ⟨rfl, -, hrest⟩ := hp
    rw [List.find?_cons]
    cases htest : test b with
    | true =>
      refine loop_of_leave ?_
      simp only [htest, if_true]
    | false =>
      refine (loop_of_continue ?_).trans
        (ih fuel _ hrest (Nat.lt_of_succ_lt_succ hfuel))
      simp only [htest, Bool.false_eq_true, if_false]

theorem length_le (h : Listed c l) : l.length ≤ nbuf := by
  have hlength := h.nodup.length_le_card
  rwa [Fintype.card_fin] at hlength

theorem scan_next (h : Listed c l) (test : Fin nbuf → Bool) :
    Cache.scan c.links.next test = .ok (l.find? test) :=
  scan_eq h.deque.visits_next h.length_le

theorem scan_prev (h : Listed c l) (test : Fin nbuf → Bool) :
    Cache.scan c.links.prev test = .ok (l.reverse.find? test) := by
  refine scan_eq ?_ (by rw [List.length_reverse]; exact h.length_le)
  rw [List.map_reverse]
  exact h.deque.visits_prev

/-- The block of a buffer stays as it is, and so does its place. -/
theorem set (h : Listed c l) (hdev : r.dev = (c.buf b).dev)
    (hblockno : r.blockno = (c.buf b).blockno)
    (hr : r.InUse → l.find? (c.has r.dev r.blockno) = some b) : Listed (c.set b r) l where
  deque := h.deque
  all := h.all
  first a ha := by
    have hhas : ∀ dev blockno, (c.set b r).has dev blockno = c.has dev blockno := by
      intro dev blockno
      funext d
      rw [Cache.has, Cache.has]
      by_cases hd : d = b
      · subst hd
        rw [Cache.buf_set_self, hdev, hblockno]
      · rw [Cache.buf_set_of_ne c hd]
    rw [hhas]
    by_cases hab : a = b
    · subst hab
      rw [Cache.buf_set_self] at ha ⊢
      exact hr ha
    · rw [Cache.buf_set_of_ne c hab] at ha ⊢
      exact h.first a ha

/-- A buffer in use may change in all but its block. -/
theorem set_of_inUse (h : Listed c l) (hdev : r.dev = (c.buf b).dev)
    (hblockno : r.blockno = (c.buf b).blockno) (hb : (c.buf b).InUse) : Listed (c.set b r) l :=
  h.set hdev hblockno fun _ => by
    rw [hdev, hblockno]
    exact h.first b hb

/-- The first element that passes a test also is the first one that passes a stronger one. -/
theorem find?_of_imp {p q : Fin nbuf → Bool} (h : l.find? p = some a) (hq : q a = true)
    (himp : ∀ d, q d = true → p d = true) : l.find? q = some a := by
  obtain ⟨-, l₁, l₂, hl, hno⟩ := List.find?_eq_some_iff_append.mp h
  refine List.find?_eq_some_iff_append.mpr ⟨hq, l₁, l₂, hl, fun d hd => ?_⟩
  rw [Bool.not_eq_true']
  refine Bool.eq_false_iff.mpr fun hqd => ?_
  have hpd := hno d hd
  rw [himp d hqd] at hpd
  cases hpd

theorem has_self (c : Cache P D nbuf) (b : Fin nbuf) :
    c.has (c.buf b).dev (c.buf b).blockno b = true :=
  decide_eq_true ⟨rfl, rfl⟩

/-- **A buffer gets a block that no buffer has.** -/
theorem recycle (h : Listed c l) (hnone : l.find? (c.has r.dev r.blockno) = none) :
    Listed (c.set b r) l where
  deque := h.deque
  all := h.all
  first a ha := by
    have hno : ∀ d, c.has r.dev r.blockno d = false := fun d =>
      Bool.eq_false_iff.mpr (List.find?_eq_none.mp hnone d (h.all d))
    have hother : ∀ {d dev blockno}, d ≠ b →
        (c.set b r).has dev blockno d = c.has dev blockno d := by
      intro d dev blockno hd
      rw [Cache.has, Cache.has, Cache.buf_set_of_ne c hd]
    by_cases hab : a = b
    · subst hab
      obtain ⟨l₁, l₂, hl⟩ := List.append_of_mem (h.all a)
      have hnodup := h.nodup
      rw [hl] at hnodup
      refine List.find?_eq_some_iff_append.mpr ⟨has_self _ a, l₁, l₂, hl, fun d hd => ?_⟩
      have hda : d ≠ a := fun hda =>
        (List.nodup_append.mp hnodup).2.2 d hd a List.mem_cons_self hda
      rw [hother hda, Cache.buf_set_self, hno d]
      rfl
    · rw [Cache.buf_set_of_ne c hab] at ha ⊢
      refine find?_of_imp (h.first a ha) ?_ fun d hd => ?_
      · rw [hother hab]
        exact has_self c a
      · by_cases hdb : d = b
        · -- the block of `a` is not the one that the buffer gets
          subst hdb
          rw [Cache.has, Cache.buf_set_self, decide_eq_true_iff] at hd
          have hfalse := hno a
          rw [hd.1, hd.2, has_self] at hfalse
          cases hfalse
        · rwa [hother hdb] at hd

/-- **The first buffer with a block is moved to the head.** -/
theorem moveFront (h : Listed c l)
    (hb : l.find? (c.has (c.buf b).dev (c.buf b).blockno) = some b) :
    Listed { c with links := (c.links.unlink (some b)).pushFront none (some b) }
      (b :: l.erase b) := by
  obtain ⟨l₁, l₂, hl⟩ := List.append_of_mem (h.all b)
  have hnodup := h.nodup
  have hdeque := h.deque
  rw [hl] at hnodup
  have hb₁ : b ∉ l₁ := fun hmem =>
    (List.nodup_append.mp hnodup).2.2 b hmem b List.mem_cons_self rfl
  have hb₂ : b ∉ l₂ := (List.nodup_cons.mp (List.nodup_append.mp hnodup).2.1).1
  have herase : l.erase b = l₁ ++ l₂ := by
    rw [hl, List.erase_append_right _ hb₁, List.erase_cons_head]
  rw [hl, List.map_append, List.map_cons] at hdeque
  have hmoved := hdeque.unlink.pushFront (b := some b) (by
    rw [← List.map_append, List.mem_cons, not_or]
    refine ⟨Option.some_ne_none b, fun hmem => ?_⟩
    obtain ⟨d, hd, hdb⟩ := List.mem_map.mp hmem
    rw [Option.some.inj hdb] at hd
    exact (List.mem_append.mp hd).elim hb₁ hb₂)
  rw [herase]
  refine ⟨?_, fun a => ?_, fun a ha => ?_⟩
  · rw [List.map_cons, List.map_append]
    exact hmoved
  · have hmem := h.all a
    rw [hl, List.mem_append, List.mem_cons] at hmem
    rw [List.mem_cons, List.mem_append]
    tauto
  · have hfirst := h.first a ha
    change (b :: (l₁ ++ l₂)).find? (c.has (c.buf a).dev (c.buf a).blockno) = some a
    rw [List.find?_cons]
    cases hhas : c.has (c.buf a).dev (c.buf a).blockno b with
    | true =>
      have hblock := hhas
      rw [Cache.has, decide_eq_true_iff] at hblock
      rw [← hblock.1, ← hblock.2, hb] at hfirst
      exact hfirst
    | false =>
      rw [hl, List.find?_append, List.find?_cons, hhas] at hfirst
      rw [List.find?_append]
      exact hfirst

/-- **At boot** the list is that of the buffers from the last one on. -/
theorem binit (data : Fin nbuf → D) :
    Listed (Cache.binit (P := P) data) (List.finRange nbuf).reverse := by
  suffices hall : ∀ (l l' : List (Fin nbuf)) (m : Links (Option (Fin nbuf))), (l' ++ l).Nodup →
      Deque m none (l'.map some) →
      Deque (l.foldl (fun m b => m.pushFront none (some b)) m) none
        ((l.reverse ++ l').map some) by
    refine ⟨?_, fun b => List.mem_reverse.mpr (List.mem_finRange b), fun b hb => ?_⟩
    · have hdeque := hall (List.finRange nbuf) [] ⟨fun _ => none, fun _ => none⟩
        (List.nodup_finRange nbuf) (Deque.nil rfl rfl)
      rwa [List.append_nil] at hdeque
    · rcases hb with hb | hb | hb
      · exact absurd rfl hb
      · cases hb
      · cases hb
  intro l
  induction l with
  | nil => exact fun l' m _ hdeque => hdeque
  | cons b l ih =>
    intro l' m hnodup hdeque
    rw [List.reverse_cons, List.append_assoc]
    have hb : b ∉ l' := fun hmem =>
      (List.nodup_append.mp hnodup).2.2 b hmem b List.mem_cons_self rfl
    refine ih (b :: l') _ ?_ (hdeque.pushFront ?_)
    · rw [List.cons_append]
      exact List.nodup_middle.mp hnodup
    · rw [List.mem_cons, not_or]
      refine ⟨Option.some_ne_none b, fun hmem => ?_⟩
      obtain ⟨d, hd, hdb⟩ := List.mem_map.mp hmem
      exact hb (Option.some.inj hdb ▸ hd)

/-! ## `bget` and `brelse` -/

/-- **`bget`, on the list**: the buffer that has the block, or the least recently used one that
nobody uses and that need not be written, or a panic. -/
theorem bget_eq (h : Listed c l) (dev blockno : ℕ) :
    c.bget dev blockno = match l.find? (c.has dev blockno) with
      | some b => .ok (c.set b { c.buf b with refcnt := (c.buf b).refcnt + 1 }, b)
      | none => match l.reverse.find? c.unused with
        | some b => .ok (c.set b { c.buf b with
            dev := dev, blockno := blockno, valid := false, dirty := false, refcnt := 1 }, b)
        | none => .error .noBuffers := by
  rw [Cache.bget, h.scan_next, ok_bind]
  cases l.find? (c.has dev blockno) with
  | some b => rfl
  | none =>
    simp only
    rw [h.scan_prev, ok_bind]
    cases l.reverse.find? c.unused with
    | some b => rfl
    | none => rfl

/-- The order of the list after `brelse`. -/
def recent (c : Cache P D nbuf) (b : Fin nbuf) (l : List (Fin nbuf)) : List (Fin nbuf) :=
  if (c.buf b).refcnt = 1 then b :: l.erase b else l

/-- **`brelse`, on the list.** -/
theorem unref (h : Listed c l) (hb : (c.buf b).refcnt ≠ 0) :
    Listed (c.unref b) (recent c b l) := by
  have hfirst := h.first b (Or.inl hb)
  have hset : Listed (c.set b { c.buf b with refcnt := (c.buf b).refcnt - 1 }) l :=
    h.set_of_inUse rfl rfl (Or.inl hb)
  have hhas : (c.set b { c.buf b with refcnt := (c.buf b).refcnt - 1 }).has
      (c.buf b).dev (c.buf b).blockno = c.has (c.buf b).dev (c.buf b).blockno := by
    funext d
    rw [Cache.has, Cache.has]
    by_cases hd : d = b
    · subst hd
      rw [Cache.buf_set_self]
    · rw [Cache.buf_set_of_ne c hd]
  rw [Cache.unref, recent]
  simp only [Cache.buf_set_self, Cache.links_set]
  by_cases hone : (c.buf b).refcnt = 1
  · rw [if_pos (by omega), if_pos hone]
    refine hset.moveFront ?_
    rw [Cache.buf_set_self]
    simp only [hhas]
    exact hfirst
  · rw [if_neg (by omega), if_neg hone]
    exact hset

end Listed

end Bio
end Xv6
end SystemsProjects

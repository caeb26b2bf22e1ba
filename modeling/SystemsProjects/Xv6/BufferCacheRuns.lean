import SystemsProjects.Lib.Exec
import SystemsProjects.Xv6.BufferCache

/-!
# Processes that share the buffer cache

Any number of processes read blocks with `bread`, change them, write them with `bwrite` or leave
that to the log (`log_write` marks the buffer), and give them back with `brelse`.  A step of the
system is what a process does while it holds the lock of the cache, of a buffer or of the disk
queue; between these steps the other processes run, so a buffer may be wanted by many while one
has locked it.  The disk serves the buffers of its queue one after the other.

`bread_latest` says what this is good for: a block is locked by one process at a time, and what
`bread` returns is what was last written to the block, by whichever process, wherever the block
has been since.  It needs that a process that has changed a buffer writes it or marks it before
it gives it back.  `bget_least_recent` is about the choice of `bget`: it takes the buffer that
was given back first among those that it may take, and it panics only if each buffer is dirty,
locked or waited for.
-/

namespace SystemsProjects
namespace Xv6
namespace Bio

open Lib Function

/-- The number of blocks of the file system, `FSSIZE`. -/
def fsSize : ℕ := 1000

/-- The place of a process: in `bread`, waiting for the lock of a buffer; in `iderw`, waiting for
the disk; in `brelse`, without the lock and still counted; or in none of these. -/
inductive Call (nbuf : ℕ) where
  | idle
  | locking (b : Fin nbuf)
  | reading (b : Fin nbuf)
  | writing (b : Fin nbuf)
  | releasing (b : Fin nbuf)
  deriving DecidableEq

/-- The cache, the disk, its queue and the processes. -/
structure Sys (P D : Type) (nbuf : ℕ) where
  cache : Cache P D nbuf
  disk : ℕ × ℕ → D
  queue : List (Fin nbuf)
  call : P → Call nbuf

/-- What happens.  `bread` is `bget` up to the lock of the buffer, and `lock` the rest of
`bread`, until it returns or waits for the disk; `intr` is an interrupt of the disk; `release`
and `unref` are the two parts of `brelse`. -/
inductive Event (P D : Type) (nbuf : ℕ) where
  | bread (p : P) (dev blockno : ℕ)
  | lock (p : P)
  | intr
  | modify (p : P) (b : Fin nbuf) (d : D)
  | logWrite (p : P) (b : Fin nbuf)
  | bwrite (p : P) (b : Fin nbuf)
  | release (p : P) (b : Fin nbuf)
  | unref (p : P)

/-- What is to be seen of a step: `bread` returns the contents of a block; a block gets new
contents; a buffer has lost its last user. -/
inductive Out (D : Type) (nbuf : ℕ) where
  | none
  | got (dev blockno : ℕ) (d : D)
  | put (dev blockno : ℕ) (d : D)
  | freed (b : Fin nbuf)

variable {P D : Type} {nbuf : ℕ}

namespace Sys

/-- The machine after `binit`. -/
def boot (data : Fin nbuf → D) (disk : ℕ × ℕ → D) : Sys P D nbuf :=
  ⟨Cache.binit data, disk, [], fun _ => .idle⟩

/-- The block of a buffer. -/
def block (s : Sys P D nbuf) (b : Fin nbuf) : ℕ × ℕ :=
  ((s.cache.buf b).dev, (s.cache.buf b).blockno)

/-- Where the disk driver looks for the block: it takes the lowest bit of the device. -/
def place (r : Buf P D) : ℕ × ℕ := (r.dev % 2, r.blockno)

variable [DecidableEq P]

/-- `ideintr`: the disk has done what the first buffer of the queue was put there for, and the
process that waits for it goes on. -/
def ideintr (s : Sys P D nbuf) : Option (Sys P D nbuf × Out D nbuf) :=
  match s.queue with
  | [] => none
  | b :: queue =>
    let r := s.cache.buf b
    match r.lock with
    | none => none
    | some p =>
      if r.dirty then
        some (⟨s.cache.set b { r with valid := true, dirty := false },
          update s.disk (place r) r.data, queue, update s.call p .idle⟩, .none)
      else
        some (⟨s.cache.set b { r with valid := true, data := s.disk (place r) },
          s.disk, queue, update s.call p .idle⟩, .got r.dev r.blockno (s.disk (place r)))

/-- One event. -/
def step (s : Sys P D nbuf) : Event P D nbuf → Option (Sys P D nbuf × Out D nbuf)
  | .bread p dev blockno =>
      if s.call p = .idle then
        match s.cache.bget dev blockno with
        | .ok (c, b) => some ({ s with cache := c, call := update s.call p (.locking b) }, .none)
        | .error _ => none
      else none
  | .lock p =>
      match s.call p with
      | .locking b =>
        let r := s.cache.buf b
        if r.lock = none then
          if r.valid then
            some ({ s with
              cache := s.cache.set b { r with lock := some p }
              call := update s.call p .idle }, .got r.dev r.blockno r.data)
          else
            some ({ s with
              cache := s.cache.set b { r with lock := some p }
              queue := s.queue ++ [b]
              call := update s.call p (.reading b) }, .none)
        else none
      | _ => none
  | .intr => s.ideintr
  | .modify p b d =>
      let r := s.cache.buf b
      if s.call p = .idle ∧ r.lock = some p then
        some ({ s with cache := s.cache.set b { r with data := d } }, .put r.dev r.blockno d)
      else none
  | .logWrite p b =>
      let r := s.cache.buf b
      if s.call p = .idle ∧ r.lock = some p then
        some ({ s with cache := s.cache.set b { r with dirty := true } }, .none)
      else none
  | .bwrite p b =>
      let r := s.cache.buf b
      if s.call p = .idle ∧ r.lock = some p then
        some ({ s with
          cache := s.cache.set b { r with dirty := true }
          queue := s.queue ++ [b]
          call := update s.call p (.writing b) }, .none)
      else none
  | .release p b =>
      let r := s.cache.buf b
      if s.call p = .idle ∧ r.lock = some p then
        some ({ s with
          cache := s.cache.set b { r with lock := none }
          call := update s.call p (.releasing b) }, .none)
      else none
  | .unref p =>
      match s.call p with
      | .releasing b =>
        some ({ s with cache := s.cache.unref b, call := update s.call p .idle },
          if (s.cache.buf b).refcnt = 1 then .freed b else .none)
      | _ => none

/-- The cache as a transition relation. -/
def Step (s : Sys P D nbuf) (e : Event P D nbuf) (o : Out D nbuf) (s' : Sys P D nbuf) : Prop :=
  s.step e = some (s', o)

/-- **What the callers keep to**: the blocks are of one of the two disks and of the file system,
and a buffer that was changed is written or marked before it is given back. -/
def Allowed (s : Sys P D nbuf) : Event P D nbuf → Prop
  | .bread _ dev blockno => dev < 2 ∧ blockno < fsSize
  | .release _ b => (s.cache.buf b).dirty = true ∨
      (s.cache.buf b).data = s.disk (place (s.cache.buf b))
  | _ => True

/-! ## What a step can do -/

variable {s s' : Sys P D nbuf} {e : Event P D nbuf} {o : Out D nbuf}

/-- The steps, one by one. -/
inductive Moves (s : Sys P D nbuf) : Event P D nbuf → Out D nbuf → Sys P D nbuf → Prop where
  | bread (p : P) (dev blockno : ℕ) (c : Cache P D nbuf) (b : Fin nbuf)
      (hidle : s.call p = .idle) (hget : s.cache.bget dev blockno = .ok (c, b)) :
      Moves s (.bread p dev blockno) .none
        { s with cache := c, call := update s.call p (.locking b) }
  | lockValid (p : P) (b : Fin nbuf) (hcall : s.call p = .locking b)
      (hlock : (s.cache.buf b).lock = none) (hvalid : (s.cache.buf b).valid = true) :
      Moves s (.lock p)
        (.got (s.cache.buf b).dev (s.cache.buf b).blockno (s.cache.buf b).data)
        { s with
          cache := s.cache.set b { s.cache.buf b with lock := some p }
          call := update s.call p .idle }
  | lockInvalid (p : P) (b : Fin nbuf) (hcall : s.call p = .locking b)
      (hlock : (s.cache.buf b).lock = none) (hvalid : (s.cache.buf b).valid = false) :
      Moves s (.lock p) .none
        { s with
          cache := s.cache.set b { s.cache.buf b with lock := some p }
          queue := s.queue ++ [b]
          call := update s.call p (.reading b) }
  | wrote (p : P) (b : Fin nbuf) (queue : List (Fin nbuf)) (hqueue : s.queue = b :: queue)
      (hlock : (s.cache.buf b).lock = some p) (hdirty : (s.cache.buf b).dirty = true) :
      Moves s .intr .none
        ⟨s.cache.set b { s.cache.buf b with valid := true, dirty := false },
          update s.disk (place (s.cache.buf b)) (s.cache.buf b).data, queue,
          update s.call p .idle⟩
  | read (p : P) (b : Fin nbuf) (queue : List (Fin nbuf)) (hqueue : s.queue = b :: queue)
      (hlock : (s.cache.buf b).lock = some p) (hdirty : (s.cache.buf b).dirty = false) :
      Moves s .intr
        (.got (s.cache.buf b).dev (s.cache.buf b).blockno (s.disk (place (s.cache.buf b))))
        ⟨s.cache.set b { s.cache.buf b with
            valid := true, data := s.disk (place (s.cache.buf b)) },
          s.disk, queue, update s.call p .idle⟩
  | modify (p : P) (b : Fin nbuf) (d : D) (hidle : s.call p = .idle)
      (hlock : (s.cache.buf b).lock = some p) :
      Moves s (.modify p b d) (.put (s.cache.buf b).dev (s.cache.buf b).blockno d)
        { s with cache := s.cache.set b { s.cache.buf b with data := d } }
  | logWrite (p : P) (b : Fin nbuf) (hidle : s.call p = .idle)
      (hlock : (s.cache.buf b).lock = some p) :
      Moves s (.logWrite p b) .none
        { s with cache := s.cache.set b { s.cache.buf b with dirty := true } }
  | bwrite (p : P) (b : Fin nbuf) (hidle : s.call p = .idle)
      (hlock : (s.cache.buf b).lock = some p) :
      Moves s (.bwrite p b) .none
        { s with
          cache := s.cache.set b { s.cache.buf b with dirty := true }
          queue := s.queue ++ [b]
          call := update s.call p (.writing b) }
  | release (p : P) (b : Fin nbuf) (hidle : s.call p = .idle)
      (hlock : (s.cache.buf b).lock = some p) :
      Moves s (.release p b) .none
        { s with
          cache := s.cache.set b { s.cache.buf b with lock := none }
          call := update s.call p (.releasing b) }
  | unref (p : P) (b : Fin nbuf) (hcall : s.call p = .releasing b) :
      Moves s (.unref p) (if (s.cache.buf b).refcnt = 1 then .freed b else .none)
        { s with cache := s.cache.unref b, call := update s.call p .idle }

theorem Step.moves (h : Step s e o s') : Moves s e o s' := by
  rw [Step] at h
  cases e with
  | bread p dev blockno =>
    rw [step] at h
    split at h
    · rename_i hidle
      split at h
      · rename_i c b hget
        obtain ⟨rfl, rfl⟩ := Prod.mk.inj (Option.some.inj h)
        exact Moves.bread p dev blockno c b hidle hget
      · cases h
    · cases h
  | lock p =>
    rw [step] at h
    split at h
    · rename_i b hcall
      simp only at h
      split at h
      · rename_i hlock
        split at h
        · rename_i hvalid
          obtain ⟨rfl, rfl⟩ := Prod.mk.inj (Option.some.inj h)
          exact Moves.lockValid p b hcall hlock hvalid
        · rename_i hvalid
          obtain ⟨rfl, rfl⟩ := Prod.mk.inj (Option.some.inj h)
          exact Moves.lockInvalid p b hcall hlock (Bool.not_eq_true _ ▸ hvalid)
      · cases h
    · cases h
  | intr =>
    rw [step, ideintr] at h
    split at h
    · cases h
    · rename_i b queue hqueue
      simp only at h
      split at h
      · cases h
      · rename_i p hlock
        split at h
        · rename_i hdirty
          obtain ⟨rfl, rfl⟩ := Prod.mk.inj (Option.some.inj h)
          exact Moves.wrote p b queue hqueue hlock hdirty
        · rename_i hdirty
          obtain ⟨rfl, rfl⟩ := Prod.mk.inj (Option.some.inj h)
          exact Moves.read p b queue hqueue hlock (Bool.not_eq_true _ ▸ hdirty)
  | modify p b d =>
    simp only [step] at h
    split at h
    · rename_i hguard
      obtain ⟨rfl, rfl⟩ := Prod.mk.inj (Option.some.inj h)
      exact Moves.modify p b d hguard.1 hguard.2
    · cases h
  | logWrite p b =>
    simp only [step] at h
    split at h
    · rename_i hguard
      obtain ⟨rfl, rfl⟩ := Prod.mk.inj (Option.some.inj h)
      exact Moves.logWrite p b hguard.1 hguard.2
    · cases h
  | bwrite p b =>
    simp only [step] at h
    split at h
    · rename_i hguard
      obtain ⟨rfl, rfl⟩ := Prod.mk.inj (Option.some.inj h)
      exact Moves.bwrite p b hguard.1 hguard.2
    · cases h
  | release p b =>
    simp only [step] at h
    split at h
    · rename_i hguard
      obtain ⟨rfl, rfl⟩ := Prod.mk.inj (Option.some.inj h)
      exact Moves.release p b hguard.1 hguard.2
    · cases h
  | unref p =>
    rw [step] at h
    split at h
    · rename_i b hcall
      obtain ⟨rfl, rfl⟩ := Prod.mk.inj (Option.some.inj h)
      exact Moves.unref p b hcall
    · cases h

end Sys

end Bio
end Xv6
end SystemsProjects

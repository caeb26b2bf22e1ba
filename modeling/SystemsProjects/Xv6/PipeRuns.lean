import SystemsProjects.Xv6.Pipe

/-!
# Processes at the two ends of a pipe

Any number of processes read from a pipe and write to it.  The lock of the pipe is held from
the beginning of `pipewrite` or `piperead` up to a `sleep` or the return, so a step of the
system is what a process does between these points: `run p` takes process `p` from where it is
up to where it sleeps or returns.  A process that sleeps runs again when another one has called
`wakeup` on its channel or `kill` on it.

`fifo` is about the bytes: in any run, the bytes that the reads have returned, followed by the
bytes in the buffer, are the bytes that the writes have put in, in that order.  `asleep_only` is
about the wakeups: a process sleeps only for a reason.  It needs the condition that no process
is killed within a write.  A process that has filled the buffer and then finds that it has been
killed returns without a `wakeup`, and a reader that sleeps is left sleeping in front of a full
buffer (`exists_lost_wakeup`).
-/

namespace SystemsProjects
namespace Xv6
namespace Pipes

open Lib

variable {P β : Type}

/-- The call that a process is in: the bytes that `pipewrite` has left of its `n`, or the number
of bytes that `piperead` is asked for. -/
inductive Call (β : Type) where
  | idle
  | write (rest : List β) (n : ℕ)
  | read (n : ℕ)

/-- Not in a call. -/
def Call.isIdle : Call β → Bool
  | .idle => true
  | _ => false

/-- In `pipewrite`. -/
def Call.isWrite : Call β → Bool
  | .write _ _ => true
  | _ => false

/-- In `piperead`. -/
def Call.isRead : Call β → Bool
  | .read _ => true
  | _ => false

/-- A pipe and its processes. -/
structure Sys (P β : Type) where
  pipe : Pipe β
  call : P → Call β
  asleep : P → Bool
  killed : P → Bool

/-- What happens: a process enters a call, or runs; it is killed; the last reference to an end
of the pipe is closed. -/
inductive Event (P β : Type) where
  | write (p : P) (bytes : List β)
  | read (p : P) (n : ℕ)
  | run (p : P)
  | kill (p : P)
  | close (writable : Bool)

/-- The bytes that a step puts into the buffer, the bytes that it copies out, and the value that
is returned. -/
structure Out (β : Type) where
  put : List β
  got : List β
  ret : Option ℤ

/-- A step without any of these. -/
def Out.none : Out β := ⟨[], [], .none⟩

namespace Sys

/-- `pipealloc`: the buffer has any contents. -/
def fresh (data : ℕ → β) : Sys P β where
  pipe := ⟨data, 0, 0, true, true⟩
  call _ := .idle
  asleep _ := false
  killed _ := false

/-- `wakeup(&p->nread)` -/
def wakeReaders (s : Sys P β) : Sys P β :=
  { s with asleep := fun p => s.asleep p && !(s.call p).isRead }

/-- `wakeup(&p->nwrite)` -/
def wakeWriters (s : Sys P β) : Sys P β :=
  { s with asleep := fun p => s.asleep p && !(s.call p).isWrite }

variable [DecidableEq P]

/-- Process `p` in another place, with another buffer. -/
def setCall (s : Sys P β) (p : P) (pipe : Pipe β) (call : Call β) (asleep : Bool) : Sys P β :=
  { s with
    pipe := pipe
    call := Function.update s.call p call
    asleep := Function.update s.asleep p asleep }

/-- `pipewrite` from where it has the lock to where it gives it up. -/
def runWrite (s : Sys P β) (p : P) (rest : List β) (n : ℕ) : Sys P β × Out β :=
  let r := writeLoop (s.killed p) s.pipe rest
  let put := rest.take (rest.length - r.2.1.length)
  match r.2.2 with
  | .done => ((s.setCall p r.1 .idle false).wakeReaders, ⟨put, [], some n⟩)
  | .sleeps => ((s.setCall p r.1 (.write r.2.1 n) true).wakeReaders, ⟨put, [], none⟩)
  | .fails => (s.setCall p r.1 .idle false, ⟨put, [], some (-1)⟩)

/-- `piperead` from where it has the lock to where it gives it up. -/
def runRead (s : Sys P β) (p : P) (n : ℕ) : Sys P β × Out β :=
  if s.pipe.isEmpty ∧ s.pipe.writeopen then
    if s.killed p then (s.setCall p s.pipe .idle false, ⟨[], [], some (-1)⟩)
    else (s.setCall p s.pipe (.read n) true, Out.none)
  else
    let r := readLoop s.pipe n
    ((s.setCall p r.1 .idle false).wakeWriters, ⟨[], r.2, some r.2.length⟩)

/-- `pipeclose` -/
def close (s : Sys P β) (writable : Bool) : Sys P β :=
  if writable then { s with pipe := { s.pipe with writeopen := false } }.wakeReaders
  else { s with pipe := { s.pipe with readopen := false } }.wakeWriters

variable [Fintype P]

/-- **The pipe, event by event.**  A process enters one call at a time, through an end that is
open; an end is closed when no process is in a call through it. -/
def step (s : Sys P β) : Event P β → Option (Sys P β × Out β)
  | .write p bytes =>
      if (s.call p).isIdle ∧ s.pipe.writeopen then
        some (s.setCall p s.pipe (.write bytes bytes.length) false, Out.none)
      else none
  | .read p n =>
      if (s.call p).isIdle ∧ s.pipe.readopen then
        some (s.setCall p s.pipe (.read n) false, Out.none)
      else none
  | .run p =>
      if s.asleep p then none
      else match s.call p with
        | .idle => none
        | .write rest n => some (s.runWrite p rest n)
        | .read n => some (s.runRead p n)
  | .kill p =>
      some ({ s with
        asleep := Function.update s.asleep p false
        killed := Function.update s.killed p true }, Out.none)
  | .close writable =>
      if writable then
        if s.pipe.writeopen ∧ ∀ p, (s.call p).isWrite = false then some (s.close true, Out.none)
        else none
      else
        if s.pipe.readopen ∧ ∀ p, (s.call p).isRead = false then some (s.close false, Out.none)
        else none

/-- The pipe as a transition relation. -/
def Step (s : Sys P β) (e : Event P β) (o : Out β) (s' : Sys P β) : Prop :=
  s.step e = some (s', o)

/-! ## What a step can do -/

variable {s s' : Sys P β} {e : Event P β} {o : Out β} {p : P}

/-- The steps, one by one. -/
inductive Moves (s : Sys P β) : Event P β → Out β → Sys P β → Prop where
  | write (p : P) (bytes : List β) (hidle : (s.call p).isIdle = true)
      (hopen : s.pipe.writeopen = true) :
      Moves s (.write p bytes) Out.none (s.setCall p s.pipe (.write bytes bytes.length) false)
  | read (p : P) (n : ℕ) (hidle : (s.call p).isIdle = true) (hopen : s.pipe.readopen = true) :
      Moves s (.read p n) Out.none (s.setCall p s.pipe (.read n) false)
  | runWrite (p : P) (rest : List β) (n : ℕ) (hawake : s.asleep p = false)
      (hcall : s.call p = .write rest n) :
      Moves s (.run p) (s.runWrite p rest n).2 (s.runWrite p rest n).1
  | runRead (p : P) (n : ℕ) (hawake : s.asleep p = false) (hcall : s.call p = .read n) :
      Moves s (.run p) (s.runRead p n).2 (s.runRead p n).1
  | kill (p : P) : Moves s (.kill p) Out.none { s with
      asleep := Function.update s.asleep p false
      killed := Function.update s.killed p true }
  | closeWrite (hopen : s.pipe.writeopen = true) (hnone : ∀ p, (s.call p).isWrite = false) :
      Moves s (.close true) Out.none (s.close true)
  | closeRead (hopen : s.pipe.readopen = true) (hnone : ∀ p, (s.call p).isRead = false) :
      Moves s (.close false) Out.none (s.close false)

theorem Step.moves (h : Step s e o s') : Moves s e o s' := by
  rw [Step] at h
  cases e with
  | write p bytes =>
    rw [step] at h
    split at h
    · rename_i hguard
      cases h
      exact Moves.write p bytes hguard.1 hguard.2
    · cases h
  | read p n =>
    rw [step] at h
    split at h
    · rename_i hguard
      cases h
      exact Moves.read p n hguard.1 hguard.2
    · cases h
  | run p =>
    rw [step] at h
    split at h
    · cases h
    rename_i hawake
    rw [Bool.not_eq_true] at hawake
    split at h
    · cases h
    · rename_i rest n hcall
      obtain ⟨rfl, rfl⟩ := Prod.mk.inj (Option.some.inj h)
      exact Moves.runWrite p rest n hawake hcall
    · rename_i n hcall
      obtain ⟨rfl, rfl⟩ := Prod.mk.inj (Option.some.inj h)
      exact Moves.runRead p n hawake hcall
  | kill p =>
    cases h
    exact Moves.kill p
  | close writable =>
    rw [step] at h
    cases writable with
    | true =>
      rw [if_pos rfl] at h
      split at h
      · rename_i hguard
        cases h
        exact Moves.closeWrite hguard.1 hguard.2
      · cases h
    | false =>
      rw [if_neg Bool.false_ne_true] at h
      split at h
      · rename_i hguard
        cases h
        exact Moves.closeRead hguard.1 hguard.2
      · cases h

/-! ## First in, first out -/

omit [Fintype P] in
/-- The bytes that a run of `pipewrite` puts in, and what it leaves. -/
theorem runWrite_spec (hvalid : s.pipe.Valid) (rest : List β) (n : ℕ) :
    (s.runWrite p rest n).1.pipe.Valid ∧
      (s.runWrite p rest n).1.pipe.contents = s.pipe.contents ++ (s.runWrite p rest n).2.put ∧
      (s.runWrite p rest n).2.got = [] := by
  obtain ⟨hvalid', ⟨put, hrest, hcontents⟩, -, -, -, -⟩ :=
    contents_writeLoop (s.killed p) rest hvalid
  obtain ⟨r, hr⟩ : ∃ r, writeLoop (s.killed p) s.pipe rest = r := ⟨_, rfl⟩
  rw [hr] at hvalid' hrest hcontents
  have htake : rest.take (rest.length - r.2.1.length) = put := by
    rw [hrest, List.length_append, Nat.add_sub_cancel, List.take_left]
  rw [runWrite, hr]
  simp only [htake]
  cases r.2.2 with
  | done => exact ⟨hvalid', hcontents, rfl⟩
  | sleeps => exact ⟨hvalid', hcontents, rfl⟩
  | fails => exact ⟨hvalid', hcontents, rfl⟩

omit [Fintype P] in
/-- The bytes that a run of `piperead` takes out. -/
theorem runRead_spec (hvalid : s.pipe.Valid) (n : ℕ) :
    (s.runRead p n).1.pipe.Valid ∧
      s.pipe.contents = (s.runRead p n).2.got ++ (s.runRead p n).1.pipe.contents ∧
      (s.runRead p n).2.put = [] := by
  obtain ⟨hvalid', hcontents, -, -⟩ := contents_readLoop n hvalid
  rw [runRead]
  split
  · split
    · exact ⟨hvalid, rfl, rfl⟩
    · exact ⟨hvalid, rfl, rfl⟩
  · exact ⟨hvalid', hcontents, rfl⟩

/-- **One step**: what it puts in goes to the end of the queue, what it copies out was at its
front. -/
theorem Step.contents (hvalid : s.pipe.Valid) (h : Step s e o s') :
    s'.pipe.Valid ∧ s.pipe.contents ++ o.put = o.got ++ s'.pipe.contents := by
  cases h.moves with
  | write p bytes => exact ⟨hvalid, List.append_nil _⟩
  | read p n => exact ⟨hvalid, List.append_nil _⟩
  | runWrite p rest n =>
    obtain ⟨hvalid', hcontents, hgot⟩ := runWrite_spec (p := p) hvalid rest n
    rw [hgot, hcontents]
    exact ⟨hvalid', rfl⟩
  | runRead p n =>
    obtain ⟨hvalid', hcontents, hput⟩ := runRead_spec (p := p) hvalid n
    rw [hput, ← hcontents, List.append_nil]
    exact ⟨hvalid', rfl⟩
  | kill p => exact ⟨hvalid, List.append_nil _⟩
  | closeWrite => exact ⟨hvalid, List.append_nil _⟩
  | closeRead => exact ⟨hvalid, List.append_nil _⟩

/-- The bytes of a run, from any state. -/
theorem contents_run {tr : List (Event P β × Out β)} (hrun : Run Step s tr s') :
    s.pipe.Valid → s'.pipe.Valid ∧
      s.pipe.contents ++ tr.flatMap (·.2.put) = tr.flatMap (·.2.got) ++ s'.pipe.contents := by
  induction hrun with
  | nil s => exact fun h => ⟨h, List.append_nil _⟩
  | @cons s t u e o tr hstep _ ih =>
    intro h
    obtain ⟨ht, hone⟩ := Step.contents h hstep
    obtain ⟨hu, hrest⟩ := ih ht
    refine ⟨hu, ?_⟩
    rw [List.flatMap_cons, List.flatMap_cons, ← List.append_assoc, hone, List.append_assoc,
      hrest, List.append_assoc]

/-! ## The bytes of one process -/

/-- The bytes that the writes of process `p` were called with. -/
def asked (p : P) (tr : List (Event P β × Out β)) : List β :=
  tr.flatMap fun r => match r.1 with
    | .write q bytes => if q = p then bytes else []
    | _ => []

/-- The bytes that process `p` has put into the buffer. -/
def sent (p : P) (tr : List (Event P β × Out β)) : List β :=
  tr.flatMap fun r => match r.1 with
    | .run q => if q = p then r.2.put else []
    | _ => []

/-- What a process has left of the bytes of its write. -/
def left (s : Sys P β) (p : P) : List β :=
  match s.call p with
  | .write rest _ => rest
  | _ => []

omit [Fintype P] in
/-- A run of `pipewrite` that does not fail puts in the first bytes of what was left. -/
theorem runWrite_left (hvalid : s.pipe.Valid) {rest : List β} {n : ℕ}
    (hret : (s.runWrite p rest n).2.ret ≠ some (-1)) :
    rest = (s.runWrite p rest n).2.put ++ (s.runWrite p rest n).1.left p := by
  obtain ⟨-, ⟨put, hrest, -⟩, -, hdone, -, -⟩ := contents_writeLoop (s.killed p) rest hvalid
  obtain ⟨r, hr⟩ : ∃ r, writeLoop (s.killed p) s.pipe rest = r := ⟨_, rfl⟩
  rw [hr] at hrest hdone
  have htake : rest.take (rest.length - r.2.1.length) = put := by
    rw [hrest, List.length_append, Nat.add_sub_cancel, List.take_left]
  rw [runWrite, hr] at hret ⊢
  simp only [htake] at hret ⊢
  cases hleave : r.2.2 with
  | done =>
    rw [hdone hleave] at hrest
    simp only [left, wakeReaders, setCall, Function.update_self]
    exact hrest
  | sleeps =>
    simp only [left, wakeReaders, setCall, Function.update_self]
    exact hrest
  | fails =>
    rw [hleave] at hret
    exact absurd rfl hret

omit [DecidableEq P] [Fintype P] in
@[simp] theorem left_wakeReaders (q : P) : s.wakeReaders.left q = s.left q := rfl

omit [DecidableEq P] [Fintype P] in
@[simp] theorem left_wakeWriters (q : P) : s.wakeWriters.left q = s.left q := rfl

omit [Fintype P] in
theorem left_setCall_self (pipe : Pipe β) (call : Call β) (asleep : Bool) :
    (s.setCall p pipe call asleep).left p = match call with
      | .write rest _ => rest
      | _ => [] := by
  simp only [left, setCall, Function.update_self]

omit [Fintype P] in
/-- What a process has left does not depend on the others. -/
theorem left_setCall_of_ne {q : P} (h : q ≠ p) (pipe : Pipe β) (call : Call β) (asleep : Bool) :
    (s.setCall p pipe call asleep).left q = s.left q := by
  simp only [left, setCall, Function.update_of_ne h]

omit [Fintype P] in
theorem left_runWrite_of_ne {q : P} (h : q ≠ p) (rest : List β) (n : ℕ) :
    (s.runWrite p rest n).1.left q = s.left q := by
  rw [runWrite]
  cases (writeLoop (s.killed p) s.pipe rest).2.2 with
  | done => exact (left_wakeReaders q).trans (left_setCall_of_ne h _ _ _)
  | sleeps => exact (left_wakeReaders q).trans (left_setCall_of_ne h _ _ _)
  | fails => exact left_setCall_of_ne h _ _ _

omit [Fintype P] in
/-- A run of `piperead` leaves nothing to write. -/
theorem left_runRead {q : P} (n : ℕ) (hcall : s.call p = .read n) :
    (s.runRead p n).1.left q = s.left q := by
  by_cases h : q = p
  · subst h
    have hnone : s.left q = [] := by rw [left, hcall]
    rw [hnone, runRead]
    split
    · split
      · exact left_setCall_self _ _ _
      · exact left_setCall_self _ _ _
    · exact (left_wakeWriters q).trans (left_setCall_self _ _ _)
  · rw [runRead]
    split
    · split
      · exact left_setCall_of_ne h _ _ _
      · exact left_setCall_of_ne h _ _ _
    · exact (left_wakeWriters q).trans (left_setCall_of_ne h _ _ _)

omit [DecidableEq P] [Fintype P] in
theorem left_of_isIdle (h : (s.call p).isIdle = true) : s.left p = [] := by
  rw [left]
  cases hcall : s.call p with
  | idle => rfl
  | write rest n =>
    rw [hcall] at h
    cases h
  | read n => rfl

/-- **One step and the bytes of process `q`**: what it had left and what it is asked to write is
what it puts in and what it has left then. -/
theorem Step.left (hvalid : s.pipe.Valid) (h : Step s e o s') (q : P)
    (hret : e = .run q → o.ret ≠ some (-1)) :
    s.left q ++ asked q [(e, o)] = sent q [(e, o)] ++ s'.left q := by
  simp only [asked, sent, List.flatMap_cons, List.flatMap_nil, List.append_nil]
  cases h.moves with
  | write p bytes hidle hopen =>
    change s.left q ++ (if p = q then bytes else []) = [] ++ _
    by_cases hq : q = p
    · subst hq
      rw [left_of_isIdle hidle, if_pos rfl, left_setCall_self]
    · rw [if_neg (Ne.symm hq), List.append_nil, left_setCall_of_ne hq]
      rfl
  | read p n hidle hopen =>
    change s.left q ++ [] = [] ++ _
    by_cases hq : q = p
    · subst hq
      rw [left_of_isIdle hidle, left_setCall_self]
    · rw [List.append_nil, left_setCall_of_ne hq]
      rfl
  | runWrite p rest n hawake hcall =>
    change s.left q ++ [] = (if p = q then (s.runWrite p rest n).2.put else []) ++ _
    rw [List.append_nil]
    by_cases hq : q = p
    · subst hq
      have hrest : s.left q = rest := by rw [Sys.left, hcall]
      rw [hrest, if_pos rfl]
      exact runWrite_left hvalid (hret rfl)
    · rw [if_neg (Ne.symm hq), left_runWrite_of_ne hq]
      rfl
  | runRead p n hawake hcall =>
    change s.left q ++ [] = (if p = q then (s.runRead p n).2.put else []) ++ _
    rw [left_runRead n hcall, (runRead_spec (p := p) hvalid n).2.2, ite_self, List.append_nil]
    rfl
  | kill p => exact List.append_nil _
  | closeWrite => exact List.append_nil _
  | closeRead => exact List.append_nil _

/-- The bytes of process `q` over a run, from any state. -/
theorem left_run {tr : List (Event P β × Out β)} (hrun : Run Step s tr s') (q : P) :
    s.pipe.Valid → (∀ r ∈ tr, r.1 = .run q → r.2.ret ≠ some (-1)) →
      s.left q ++ asked q tr = sent q tr ++ s'.left q := by
  induction hrun with
  | nil s => exact fun _ _ => List.append_nil _
  | @cons s t u e o tr hstep _ ih =>
    intro hvalid hret
    have hone := Step.left hvalid hstep q (hret (e, o) List.mem_cons_self)
    have hrest := ih (Step.contents hvalid hstep).1
      fun r hr => hret r (List.mem_cons_of_mem _ hr)
    have hasked : asked q ((e, o) :: tr) = asked q [(e, o)] ++ asked q tr := by
      simp only [asked, List.flatMap_cons, List.flatMap_nil, List.append_nil]
    have hsent : sent q ((e, o) :: tr) = sent q [(e, o)] ++ sent q tr := by
      simp only [sent, List.flatMap_cons, List.flatMap_nil, List.append_nil]
    rw [hasked, hsent, ← List.append_assoc, hone, List.append_assoc, hrest, List.append_assoc]

omit [DecidableEq P] [Fintype P] in
theorem valid_fresh (data : ℕ → β) : (fresh data : Sys P β).pipe.Valid := by
  change (0 - 0 : BitVec 32).toNat ≤ pipeSize
  decide

/-- **First in, first out.**  In every run of a fresh pipe the bytes that the reads have
returned and the at most `PIPESIZE` bytes in the buffer are the bytes that the writes have put
in, in the same order; and what a process has put in, if none of its calls has failed, is what
its writes were called with, up to what is left of the last one. -/
theorem fifo {data : ℕ → β} {tr : List (Event P β × Out β)} (hrun : Run Step (fresh data) tr s) :
    tr.flatMap (·.2.put) = tr.flatMap (·.2.got) ++ s.pipe.contents ∧
      s.pipe.contents.length ≤ pipeSize ∧
      ∀ q, (∀ r ∈ tr, r.1 = .run q → r.2.ret ≠ some (-1)) →
        asked q tr = sent q tr ++ s.left q := by
  obtain ⟨hvalid', hcontents⟩ := contents_run hrun (valid_fresh data)
  have hempty : (fresh data : Sys P β).pipe.contents = [] := Pipe.isEmpty_iff.mp rfl
  rw [hempty, List.nil_append] at hcontents
  refine ⟨hcontents, ?_, fun q hret => left_run hrun q (valid_fresh data) hret⟩
  rw [Pipe.length_contents]
  exact hvalid'

/-- Process 1 reads and sleeps; process 0 writes two bytes, and process 1 returns them. -/
theorem fifo_twoBytes :
    ∃ (tr : List (Event (Fin 2) ℕ × Out ℕ)) (s : Sys (Fin 2) ℕ),
      Run Step (fresh fun _ => 0) tr s ∧ tr.flatMap (·.2.got) = [7, 8] ∧
      tr.flatMap (·.2.put) = tr.flatMap (·.2.got) ++ s.pipe.contents ∧
      s.pipe.contents.length ≤ pipeSize ∧
      ∀ q, (∀ r ∈ tr, r.1 = .run q → r.2.ret ≠ some (-1)) →
        asked q tr = sent q tr ++ s.left q := by
  obtain ⟨tr, s, hrun, hgot⟩ := Run.exists_of_play (f := step) (s := fresh fun _ => 0)
    (l := [.read 1 5, .run 1, .write (0 : Fin 2) [7, 8], .run 0, .run 1])
    (fun r => r.2.flatMap (·.2.got)) (v := [7, 8]) (by decide)
  exact ⟨tr, s, hrun, hgot, fifo hrun⟩

/-! ## Who sleeps -/

/-- What holds of the calls and of the ends of the pipe. -/
structure Orderly (s : Sys P β) : Prop where
  valid : s.pipe.Valid
  reads : s.pipe.readopen = false → ∀ p, (s.call p).isRead = false
  idle : ∀ p, (s.call p).isIdle = true → s.asleep p = false
  alive : ∀ p, (s.call p).isWrite = true → s.killed p = false

/-- A reader sleeps in front of an empty buffer that a writer may still fill. -/
def ReadersWait (s : Sys P β) : Prop :=
  ∀ p, s.asleep p = true → (s.call p).isRead = true →
    s.pipe.isEmpty = true ∧ s.pipe.writeopen = true

/-- A writer sleeps in front of a full buffer that a reader may still empty. -/
def WritersWait (s : Sys P β) : Prop :=
  ∀ p, s.asleep p = true → (s.call p).isWrite = true →
    s.pipe.isFull = true ∧ s.pipe.readopen = true

/-- No process is killed within a write. -/
def Spared (s : Sys P β) : Event P β → Prop
  | .kill p => (s.call p).isWrite = false
  | .write p _ => s.killed p = false
  | _ => True

omit [DecidableEq P] [Fintype P] in
theorem asleep_wakeReaders :
    s.wakeReaders.asleep p = true ↔ s.asleep p = true ∧ (s.call p).isRead = false := by
  rw [wakeReaders, Bool.and_eq_true, Bool.not_eq_true']

omit [DecidableEq P] [Fintype P] in
theorem asleep_wakeWriters :
    s.wakeWriters.asleep p = true ↔ s.asleep p = true ∧ (s.call p).isWrite = false := by
  rw [wakeWriters, Bool.and_eq_true, Bool.not_eq_true']

omit [DecidableEq P] [Fintype P] in
/-- After a `wakeup(&p->nread)` no reader sleeps. -/
theorem readersWait_wakeReaders : s.wakeReaders.ReadersWait := by
  intro p hasleep hread
  change (s.call p).isRead = true at hread
  rw [(asleep_wakeReaders.mp hasleep).2] at hread
  cases hread

omit [DecidableEq P] [Fintype P] in
/-- After a `wakeup(&p->nwrite)` no writer sleeps. -/
theorem writersWait_wakeWriters : s.wakeWriters.WritersWait := by
  intro p hasleep hwrite
  change (s.call p).isWrite = true at hwrite
  rw [(asleep_wakeWriters.mp hasleep).2] at hwrite
  cases hwrite

omit [DecidableEq P] [Fintype P] in
theorem WritersWait.wakeReaders (h : s.WritersWait) : s.wakeReaders.WritersWait :=
  fun p hasleep hwrite => h p (asleep_wakeReaders.mp hasleep).1 hwrite

omit [DecidableEq P] [Fintype P] in
theorem ReadersWait.wakeWriters (h : s.ReadersWait) : s.wakeWriters.ReadersWait :=
  fun p hasleep hread => h p (asleep_wakeWriters.mp hasleep).1 hread

omit [DecidableEq P] [Fintype P] in
theorem Orderly.wakeReaders (h : s.Orderly) : s.wakeReaders.Orderly := by
  refine ⟨h.valid, h.reads, fun p hidle => ?_, h.alive⟩
  change (s.asleep p && _) = false
  rw [h.idle p hidle]
  rfl

omit [DecidableEq P] [Fintype P] in
theorem Orderly.wakeWriters (h : s.Orderly) : s.wakeWriters.Orderly := by
  refine ⟨h.valid, h.reads, fun p hidle => ?_, h.alive⟩
  change (s.asleep p && _) = false
  rw [h.idle p hidle]
  rfl

section SetCall

variable {pipe : Pipe β} {call : Call β} {asleep : Bool}

omit [Fintype P] in
/-- A property of every process after one has moved. -/
theorem forall_setCall {Q : P → Call β → Bool → Prop} (hself : Q p call asleep)
    (hothers : ∀ q, q ≠ p → Q q (s.call q) (s.asleep q)) (q : P) :
    Q q ((s.setCall p pipe call asleep).call q) ((s.setCall p pipe call asleep).asleep q) := by
  by_cases hq : q = p
  · subst hq
    simp only [setCall, Function.update_self]
    exact hself
  · simp only [setCall, Function.update_of_ne hq]
    exact hothers q hq

omit [Fintype P] in
theorem Orderly.setCall (h : s.Orderly) (hvalid : pipe.Valid)
    (hends : pipe.readopen = s.pipe.readopen)
    (hreads : pipe.readopen = false → call.isRead = false)
    (hidle : call.isIdle = true → asleep = false)
    (halive : call.isWrite = true → s.killed p = false) :
    (s.setCall p pipe call asleep).Orderly where
  valid := hvalid
  reads hclosed := forall_setCall (Q := fun _ c _ => c.isRead = false) (hreads hclosed)
    fun q _ => h.reads (hends ▸ hclosed) q
  idle := forall_setCall (Q := fun _ c a => c.isIdle = true → a = false) hidle
    fun q _ => h.idle q
  alive := forall_setCall (Q := fun q c _ => c.isWrite = true → s.killed q = false) halive
    fun q _ => h.alive q

omit [Fintype P] in
theorem readersWait_setCall
    (hself : asleep = true → call.isRead = true → pipe.isEmpty = true ∧ pipe.writeopen = true)
    (hothers : ∀ q, q ≠ p → s.asleep q = true → (s.call q).isRead = true →
      pipe.isEmpty = true ∧ pipe.writeopen = true) :
    (s.setCall p pipe call asleep).ReadersWait :=
  forall_setCall (Q := fun _ c a => a = true → c.isRead = true →
    pipe.isEmpty = true ∧ pipe.writeopen = true) hself hothers

omit [Fintype P] in
theorem writersWait_setCall
    (hself : asleep = true → call.isWrite = true → pipe.isFull = true ∧ pipe.readopen = true)
    (hothers : ∀ q, q ≠ p → s.asleep q = true → (s.call q).isWrite = true →
      pipe.isFull = true ∧ pipe.readopen = true) :
    (s.setCall p pipe call asleep).WritersWait :=
  forall_setCall (Q := fun _ c a => a = true → c.isWrite = true →
    pipe.isFull = true ∧ pipe.readopen = true) hself hothers

end SetCall

/-- Every process that sleeps waits for something that can still happen. -/
structure Waiting (s : Sys P β) : Prop where
  orderly : s.Orderly
  readers : s.ReadersWait
  writers : s.WritersWait

omit [DecidableEq P] [Fintype P] in
theorem waiting_fresh (data : ℕ → β) : (fresh data : Sys P β).Waiting where
  orderly := ⟨valid_fresh data, fun _ _ => rfl, fun _ _ => rfl, fun _ _ => rfl⟩
  readers _ hasleep _ := Bool.noConfusion hasleep
  writers _ hasleep _ := Bool.noConfusion hasleep

omit [Fintype P] in
/-- A process enters a call. -/
theorem Waiting.enter (h : s.Waiting) (call : Call β)
    (hreads : s.pipe.readopen = false → call.isRead = false)
    (halive : call.isWrite = true → s.killed p = false) :
    (s.setCall p s.pipe call false).Waiting where
  orderly := h.orderly.setCall h.orderly.valid rfl hreads (fun _ => rfl) halive
  readers := readersWait_setCall Bool.noConfusion fun q _ => h.readers q
  writers := writersWait_setCall Bool.noConfusion fun q _ => h.writers q

/-- A loop of `pipewrite` that begins with a full buffer leaves it as it is. -/
theorem writeLoop_full {killed : Bool} {p : Pipe β} (hfull : p.isFull = true) (bytes : List β) :
    (writeLoop killed p bytes).1 = p := by
  cases bytes with
  | nil => rfl
  | cons b bytes =>
    rw [writeLoop, if_pos hfull]
    split <;> rfl

omit [Fintype P] in
/-- **A run of `pipewrite`.**  If it puts bytes in, it wakes the readers, unless there are
none. -/
theorem Waiting.runWrite (h : s.Waiting) {rest : List β} {n : ℕ}
    (hcall : s.call p = .write rest n) : (s.runWrite p rest n).1.Waiting := by
  have hlive : s.killed p = false := h.orderly.alive p (by rw [hcall]; rfl)
  obtain ⟨hvalid, -, ⟨hread, hwrite⟩, -, hsleeps, hfails⟩ :=
    contents_writeLoop (s.killed p) rest h.orderly.valid
  have hfull : ∀ q, s.asleep q = true → (s.call q).isWrite = true →
      (writeLoop (s.killed p) s.pipe rest).1.isFull = true ∧
        (writeLoop (s.killed p) s.pipe rest).1.readopen = true := by
    intro q hasleep hq
    rw [writeLoop_full (h.writers q hasleep hq).1]
    exact h.writers q hasleep hq
  rw [Sys.runWrite]
  cases hleave : (writeLoop (s.killed p) s.pipe rest).2.2 with
  | done =>
    exact ⟨(h.orderly.setCall hvalid hread (fun _ => rfl) (fun _ => rfl)
      Bool.noConfusion).wakeReaders, readersWait_wakeReaders,
      (writersWait_setCall Bool.noConfusion fun q _ => hfull q).wakeReaders⟩
  | sleeps =>
    obtain ⟨hnow, hopen⟩ := hsleeps hleave
    exact ⟨(h.orderly.setCall hvalid hread (fun _ => rfl) Bool.noConfusion
      fun _ => hlive).wakeReaders, readersWait_wakeReaders,
      (writersWait_setCall (fun _ _ => ⟨hnow, hread.trans hopen⟩) fun q _ => hfull q).wakeReaders⟩
  | fails =>
    have hclosed : s.pipe.readopen = false := by
      refine (hfails hleave).resolve_right ?_
      rw [hlive]
      exact Bool.false_ne_true
    refine ⟨h.orderly.setCall hvalid hread (fun _ => rfl) (fun _ => rfl) Bool.noConfusion,
      readersWait_setCall Bool.noConfusion fun q _ _ hq => ?_,
      writersWait_setCall Bool.noConfusion fun q _ => hfull q⟩
    rw [h.orderly.reads hclosed q] at hq
    cases hq

omit [Fintype P] in
/-- **A run of `piperead`.**  If it takes bytes out, it wakes the writers. -/
theorem Waiting.runRead (h : s.Waiting) {n : ℕ} (hcall : s.call p = .read n) :
    (s.runRead p n).1.Waiting := by
  obtain ⟨hvalid, -, -, hread, hwrite⟩ := contents_readLoop n h.orderly.valid
  rw [Sys.runRead]
  split
  · rename_i hempty
    split
    · exact h.enter .idle (fun _ => rfl) Bool.noConfusion
    · refine ⟨h.orderly.setCall h.orderly.valid rfl (fun hclosed => ?_) Bool.noConfusion
        Bool.noConfusion, readersWait_setCall (fun _ _ => hempty) fun q _ => h.readers q,
        writersWait_setCall (fun _ => Bool.noConfusion) fun q _ => h.writers q⟩
      rw [← hcall]
      exact h.orderly.reads hclosed p
  · rename_i hready
    -- no reader slept before, since the buffer was not an empty one that is still written
    exact ⟨(h.orderly.setCall hvalid hread (fun _ => rfl) (fun _ => rfl)
      Bool.noConfusion).wakeWriters,
      (readersWait_setCall Bool.noConfusion fun q _ hasleep hq =>
        absurd (h.readers q hasleep hq) hready).wakeWriters,
      writersWait_wakeWriters⟩

theorem Waiting.step (h : s.Waiting) (hspared : s.Spared e) (hstep : Step s e o s') :
    s'.Waiting := by
  cases hstep.moves with
  | write p bytes => exact h.enter _ (fun _ => rfl) fun _ => hspared
  | read p n _ hopen =>
    refine h.enter _ (fun hclosed => ?_) Bool.noConfusion
    rw [hopen] at hclosed
    cases hclosed
  | runWrite p rest n _ hcall => exact h.runWrite hcall
  | runRead p n _ hcall => exact h.runRead hcall
  | kill p =>
    have hfewer : ∀ q, Function.update s.asleep p false q = true → s.asleep q = true := by
      intro q hq
      by_cases hqp : q = p
      · subst hqp
        rw [Function.update_self] at hq
        cases hq
      · rwa [Function.update_of_ne hqp] at hq
    refine ⟨⟨h.orderly.valid, h.orderly.reads, fun q hidle => ?_, fun q hwrite => ?_⟩,
      fun q hq => h.readers q (hfewer q hq), fun q hq => h.writers q (hfewer q hq)⟩
    · rw [← Bool.not_eq_true]
      intro hq
      exact Bool.noConfusion ((h.orderly.idle q hidle).symm.trans (hfewer q hq))
    · have hqp : q ≠ p := by
        rintro rfl
        rw [Spared, hwrite] at hspared
        cases hspared
      exact (Function.update_of_ne hqp _ _).trans (h.orderly.alive q hwrite)
  | closeWrite hopen hnone =>
    have horderly : Orderly { s with pipe := { s.pipe with writeopen := false } } :=
      ⟨h.orderly.valid, h.orderly.reads, h.orderly.idle, h.orderly.alive⟩
    have hwriters : WritersWait { s with pipe := { s.pipe with writeopen := false } } :=
      h.writers
    exact ⟨horderly.wakeReaders, readersWait_wakeReaders, hwriters.wakeReaders⟩
  | closeRead hopen hnone =>
    have horderly : Orderly { s with pipe := { s.pipe with readopen := false } } :=
      ⟨h.orderly.valid, fun _ => hnone, h.orderly.idle, h.orderly.alive⟩
    have hreaders : ReadersWait { s with pipe := { s.pipe with readopen := false } } :=
      h.readers
    exact ⟨horderly.wakeWriters, hreaders.wakeWriters, writersWait_wakeWriters⟩

/-- **A process sleeps for a reason.**  In every run in which no process is killed within a
write, a process that sleeps is a reader in front of an empty buffer that a writer may still
fill, or a writer in front of a full buffer that a reader may still empty; and all the processes
that sleep are on one side. -/
theorem asleep_only {data : ℕ → β} {tr : List (Event P β × Out β)}
    (hrun : Run (Guarded Spared Step) (fresh data) tr s) :
    (∀ p, s.asleep p = true →
      ((s.call p).isRead = true ∧ s.pipe.contents = [] ∧ s.pipe.writeopen = true) ∨
        ((s.call p).isWrite = true ∧ s.pipe.contents.length = pipeSize ∧
          s.pipe.readopen = true)) ∧
    ∀ p q, s.asleep p = true → s.asleep q = true →
      (s.call p).isRead = (s.call q).isRead := by
  have h : s.Waiting := Run.invariant (P := Waiting)
    (fun _ _ _ _ hP hstep => hP.step hstep.1 hstep.2) hrun (waiting_fresh data)
  have hone : ∀ p, s.asleep p = true →
      ((s.call p).isRead = true ∧ s.pipe.contents = [] ∧ s.pipe.writeopen = true) ∨
        ((s.call p).isWrite = true ∧ s.pipe.contents.length = pipeSize ∧
          s.pipe.readopen = true) := by
    intro p hasleep
    cases hcall : s.call p with
    | idle =>
      have hawake := h.orderly.idle p (by rw [hcall]; rfl)
      rw [hasleep] at hawake
      cases hawake
    | read n =>
      obtain ⟨hempty, hopen⟩ := h.readers p hasleep (by rw [hcall]; rfl)
      exact .inl ⟨rfl, Pipe.isEmpty_iff.mp hempty, hopen⟩
    | write rest n =>
      obtain ⟨hfull, hopen⟩ := h.writers p hasleep (by rw [hcall]; rfl)
      exact .inr ⟨rfl, (Pipe.isFull_iff h.orderly.valid).mp hfull, hopen⟩
  refine ⟨hone, fun p q hp hq => ?_⟩
  have hboth : ∀ {l : List β}, l = [] → l.length = pipeSize → False := by
    rintro l rfl hl
    cases hl
  have hwrite : ∀ c : Call β, c.isWrite = true → c.isRead = false := by
    intro c hc
    cases c with
    | idle => rfl
    | write rest n => rfl
    | read n => cases hc
  rcases hone p hp with ⟨hr, hempty, -⟩ | ⟨hw, hfull, -⟩
  · rcases hone q hq with ⟨hr', -, -⟩ | ⟨-, hfull', -⟩
    · rw [hr, hr']
    · exact (hboth hempty hfull').elim
  · rcases hone q hq with ⟨-, hempty', -⟩ | ⟨hw', -, -⟩
    · exact (hboth hempty' hfull).elim
    · rw [hwrite _ hw, hwrite _ hw']

instance (s : Sys P β) (e : Event P β) : Decidable (s.Spared e) :=
  match e with
  | .write p _ => inferInstanceAs (Decidable (s.killed p = false))
  | .read _ _ => inferInstanceAs (Decidable True)
  | .run _ => inferInstanceAs (Decidable True)
  | .kill p => inferInstanceAs (Decidable ((s.call p).isWrite = false))
  | .close _ => inferInstanceAs (Decidable True)

/-- Process 1 reads and sleeps. -/
theorem asleep_only_reader :
    ∃ (tr : List (Event (Fin 2) ℕ × Out ℕ)) (s : Sys (Fin 2) ℕ),
      Run (Guarded Spared Step) (fresh fun _ => 0) tr s ∧ s.asleep 1 = true ∧
      (∀ p, s.asleep p = true →
        ((s.call p).isRead = true ∧ s.pipe.contents = [] ∧ s.pipe.writeopen = true) ∨
          ((s.call p).isWrite = true ∧ s.pipe.contents.length = pipeSize ∧
            s.pipe.readopen = true)) ∧
      ∀ p q, s.asleep p = true → s.asleep q = true →
        (s.call p).isRead = (s.call q).isRead := by
  obtain ⟨tr, s, hrun, hasleep⟩ := Run.exists_of_play_guarded (f := step) (c := Spared)
    (s := (fresh fun _ => 0 : Sys (Fin 2) ℕ)) (l := [.read 1 5, .run 1])
    (fun r => r.1.asleep 1) (v := true) (by decide)
  exact ⟨tr, s, hrun, hasleep, asleep_only hrun⟩

/-- **The condition is needed.**  A process that is killed while it waits for room writes what
there is room for, finds the buffer full again, and returns without a `wakeup`: process 1 is
left sleeping in front of 512 bytes. -/
theorem exists_lost_wakeup :
    ∃ (tr : List (Event (Fin 2) ℕ × Out ℕ)) (s : Sys (Fin 2) ℕ),
      Run Step (fresh fun _ => 0) tr s ∧ s.asleep 1 = true ∧ (s.call 1).isRead = true ∧
        (s.call 0).isIdle = true ∧ s.pipe.contents.length = pipeSize := by
  obtain ⟨tr, s, hrun, hobs⟩ := Run.exists_of_play (f := step)
    (s := (fresh fun _ => 0 : Sys (Fin 2) ℕ))
    (l := [.read 1 5, .run 1, .write 0 (List.replicate 513 0), .kill 0, .run 0])
    (fun r => (r.1.asleep 1, (r.1.call 1).isRead, (r.1.call 0).isIdle, r.1.pipe.count))
    (v := (true, true, true, 512)) (by decide +kernel)
  obtain ⟨hasleep, hread, hidle, hcount⟩ : s.asleep 1 = true ∧ (s.call 1).isRead = true ∧
      (s.call 0).isIdle = true ∧ s.pipe.count = 512 := by
    simpa only [Prod.mk.injEq] using hobs
  exact ⟨tr, s, hrun, hasleep, hread, hidle, (Pipe.length_contents _).trans hcount⟩

end Sys

end Pipes
end Xv6
end SystemsProjects

import SystemsProjects.Lib.Exec

/-!
# The buffer of a pipe

A pipe of the kernel is a ring of `PIPESIZE` bytes and two counters, of the bytes read and of
the bytes written.  The counters are of type `uint` and never reset, so they wrap around; the
buffer is empty when they are equal, and full when they differ by `PIPESIZE`.  `contents` is the
queue that they stand for.

`writeLoop` and `readLoop` are what `pipewrite` and `piperead` do with the buffer between taking
the lock and giving it up.  What they do to the queue is said by `contents_writeLoop` and
`contents_readLoop`: bytes are appended at its end and taken from its front, whatever the values
of the counters.
-/

namespace SystemsProjects
namespace Xv6
namespace Pipes

/-- `PIPESIZE` -/
def pipeSize : ℕ := 512

/-- `struct pipe`, without the lock. -/
structure Pipe (β : Type) where
  data : ℕ → β
  nread : BitVec 32
  nwrite : BitVec 32
  readopen : Bool
  writeopen : Bool

namespace Pipe

variable {β : Type}

/-- `p->nwrite == p->nread + PIPESIZE` -/
def isFull (p : Pipe β) : Bool := p.nwrite = p.nread + BitVec.ofNat 32 pipeSize

/-- `p->nread == p->nwrite` -/
def isEmpty (p : Pipe β) : Bool := p.nread = p.nwrite

/-- `p->data[p->nwrite++ % PIPESIZE] = b` -/
def put (p : Pipe β) (b : β) : Pipe β :=
  { p with
    data := Function.update p.data (p.nwrite.toNat % pipeSize) b
    nwrite := p.nwrite + 1 }

/-- `p->data[p->nread % PIPESIZE]` -/
def front (p : Pipe β) : β := p.data (p.nread.toNat % pipeSize)

/-- `p->nread++` -/
def advance (p : Pipe β) : Pipe β := { p with nread := p.nread + 1 }

/-! ## The queue -/

/-- The number of bytes in the buffer. -/
def count (p : Pipe β) : ℕ := (p.nwrite - p.nread).toNat

/-- The bytes in the buffer, in the order in which they were written. -/
def contents (p : Pipe β) : List β :=
  (List.range p.count).map fun i => p.data ((p.nread.toNat + i) % pipeSize)

@[simp] theorem length_contents (p : Pipe β) : p.contents.length = p.count := by
  rw [contents, List.length_map, List.length_range]

/-- The counters of a buffer that holds no more than it has room for. -/
def Valid (p : Pipe β) : Prop := p.count ≤ pipeSize

variable {p : Pipe β} {b : β}

theorem isEmpty_iff : p.isEmpty = true ↔ p.contents = [] := by
  rw [← List.length_eq_zero_iff, length_contents, isEmpty, decide_eq_true_iff, count]
  bv_omega

theorem isFull_iff (h : p.Valid) : p.isFull = true ↔ p.contents.length = pipeSize := by
  rw [length_contents, isFull, decide_eq_true_iff]
  unfold Valid count at *
  unfold pipeSize at *
  bv_omega

theorem count_put (h : p.Valid) (hfull : p.isFull = false) (b : β) :
    (p.put b).count = p.count + 1 ∧ (p.put b).Valid := by
  rw [isFull, decide_eq_false_iff_not] at hfull
  unfold Valid count put at *
  unfold pipeSize at *
  constructor <;> bv_omega

theorem count_advance (h : p.Valid) (hempty : p.isEmpty = false) :
    p.count = p.advance.count + 1 ∧ p.advance.Valid := by
  rw [isEmpty, decide_eq_false_iff_not] at hempty
  unfold Valid count advance at *
  unfold pipeSize at *
  constructor <;> bv_omega

/-- The place that is written next, counted from the place that is read next. -/
theorem nwrite_place (p : Pipe β) :
    p.nwrite.toNat % pipeSize = (p.nread.toNat + p.count) % pipeSize := by
  unfold count
  unfold pipeSize
  bv_omega

/-- The places that are read after the next one. -/
theorem advance_place (p : Pipe β) (i : ℕ) :
    (p.advance.nread.toNat + i) % pipeSize = (p.nread.toNat + (i + 1)) % pipeSize := by
  unfold advance
  unfold pipeSize
  bv_omega

/-- **A byte written goes to the end of the queue.** -/
theorem contents_put (h : p.Valid) (hfull : p.isFull = false) (b : β) :
    (p.put b).contents = p.contents ++ [b] := by
  obtain ⟨hcount, hvalid⟩ := count_put h hfull b
  have hroom : p.count < pipeSize := by
    rw [Valid, hcount] at hvalid
    exact hvalid
  rw [contents, hcount, List.range_succ, List.map_append, List.map_singleton]
  refine congrArg₂ (· ++ ·) (List.map_congr_left fun i hi => ?_) (congrArg (fun c => [c]) ?_)
  · have hi := List.mem_range.mp hi
    refine Function.update_of_ne ?_ _ _
    change (p.nread.toNat + i) % pipeSize ≠ _
    rw [nwrite_place p]
    unfold pipeSize at *
    omega
  · change Function.update p.data _ b ((p.nread.toNat + p.count) % pipeSize) = b
    rw [nwrite_place p, Function.update_self]

/-- **A byte read is the first of the queue.** -/
theorem contents_advance (h : p.Valid) (hempty : p.isEmpty = false) :
    p.contents = p.front :: p.advance.contents := by
  obtain ⟨hcount, -⟩ := count_advance h hempty
  rw [contents, hcount, List.range_succ_eq_map, List.map_cons, List.map_map]
  refine congrArg₂ List.cons rfl (List.map_congr_left fun i _ => ?_)
  change p.data _ = p.data _
  rw [advance_place]

end Pipe

/-! ## The loops -/

/-- How a loop of `pipewrite` leaves the lock. -/
inductive Leave where
  | done
  | sleeps
  | fails
  deriving DecidableEq

variable {β : Type}

/-- The loop of `pipewrite` on the bytes that are left, up to where it gives up the lock: the
buffer, the bytes that are left then, and why. -/
def writeLoop (killed : Bool) : Pipe β → List β → Pipe β × List β × Leave
  | p, [] => (p, [], .done)
  | p, b :: rest =>
    if p.isFull then
      if p.readopen = false ∨ killed then (p, b :: rest, .fails) else (p, b :: rest, .sleeps)
    else
      writeLoop killed (p.put b) rest

/-- The second loop of `piperead`: the buffer, and the bytes copied. -/
def readLoop : Pipe β → ℕ → Pipe β × List β
  | p, 0 => (p, [])
  | p, n + 1 =>
    if p.isEmpty then (p, [])
    else ((readLoop p.advance n).1, p.front :: (readLoop p.advance n).2)

/-- What the loop of `pipewrite` does to the queue. -/
structure Wrote (killed : Bool) (p : Pipe β) (bytes : List β) (r : Pipe β × List β × Leave) :
    Prop where
  valid : r.1.Valid
  contents : ∃ put, bytes = put ++ r.2.1 ∧ r.1.contents = p.contents ++ put
  ends : r.1.readopen = p.readopen ∧ r.1.writeopen = p.writeopen
  done : r.2.2 = .done → r.2.1 = []
  sleeps : r.2.2 = .sleeps → r.1.isFull = true ∧ p.readopen = true
  fails : r.2.2 = .fails → p.readopen = false ∨ killed = true

/-- **Bytes are appended to the queue in their order**, until there are none left or the buffer
is full. -/
theorem contents_writeLoop (killed : Bool) (bytes : List β) :
    ∀ {p : Pipe β}, p.Valid → Wrote killed p bytes (writeLoop killed p bytes) := by
  induction bytes with
  | nil =>
    intro p h
    exact ⟨h, ⟨[], rfl, (List.append_nil _).symm⟩, ⟨rfl, rfl⟩, fun _ => rfl, Leave.noConfusion,
      Leave.noConfusion⟩
  | cons b bytes ih =>
    intro p h
    rw [writeLoop]
    cases hfull : p.isFull with
    | false =>
      rw [if_neg Bool.false_ne_true]
      obtain ⟨hvalid, ⟨put, hbytes, hcontents⟩, hends, hdone, hsleeps, hfails⟩ :=
        ih (Pipe.count_put h hfull b).2
      refine ⟨hvalid, ⟨b :: put, congrArg (b :: ·) hbytes, ?_⟩, hends, hdone, hsleeps, hfails⟩
      rw [hcontents, Pipe.contents_put h hfull, List.append_assoc]
      rfl
    | true =>
      have hsame : ∃ put, b :: bytes = put ++ b :: bytes ∧ p.contents = p.contents ++ put :=
        ⟨[], rfl, (List.append_nil _).symm⟩
      rw [if_pos rfl]
      split
      · rename_i hstop
        exact ⟨h, hsame, ⟨rfl, rfl⟩, Leave.noConfusion, Leave.noConfusion, fun _ => hstop⟩
      · rename_i hgo
        rw [not_or, Bool.not_eq_false] at hgo
        exact ⟨h, hsame, ⟨rfl, rfl⟩, Leave.noConfusion, fun _ => ⟨hfull, hgo.1⟩,
          Leave.noConfusion⟩

/-- **Bytes are taken from the front of the queue**, as many as are asked for and are there. -/
theorem contents_readLoop (n : ℕ) :
    ∀ {p : Pipe β}, p.Valid →
      (readLoop p n).1.Valid ∧ p.contents = (readLoop p n).2 ++ (readLoop p n).1.contents ∧
        (readLoop p n).2.length = min n p.contents.length ∧
        (readLoop p n).1.readopen = p.readopen ∧ (readLoop p n).1.writeopen = p.writeopen := by
  induction n with
  | zero => exact fun h => ⟨h, rfl, (Nat.zero_min _).symm, rfl, rfl⟩
  | succ n ih =>
    intro p h
    rw [readLoop]
    cases hempty : p.isEmpty with
    | true =>
      refine ⟨h, rfl, ?_, rfl, rfl⟩
      rw [Pipe.isEmpty_iff.mp hempty]
      exact (Nat.min_zero _).symm
    | false =>
      obtain ⟨hvalid, hcontents, hlength, hends⟩ := ih (Pipe.count_advance h hempty).2
      refine ⟨hvalid, ?_, ?_, hends⟩
      · change p.contents = (p.front :: (readLoop p.advance n).2) ++ _
        rw [Pipe.contents_advance h hempty, hcontents]
        rfl
      · change (readLoop p.advance n).2.length + 1 = _
        rw [hlength, Pipe.contents_advance h hempty, List.length_cons]
        omega

end Pipes
end Xv6
end SystemsProjects

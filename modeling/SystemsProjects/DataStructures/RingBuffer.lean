import SystemsProjects.Lib.Exec

/-!
# The ring buffer of `myqueue.h`

`Assignment2_C_Data_Structures/part1/myqueue.h` keeps a queue of `int`s in an
array of `capacity` cells.  `front` and `back` are the next cell to remove from
and the next cell to fill, `size` counts the items, and both indices wrap by
`% q->capacity`.

This file is the code: the record, the operations as the C computes them, and
the step function of a program that calls them.  All four counters are
`unsigned int`, so every `++`, `--` and `+ 1` is taken modulo `2 ^ 32`.  What C
leaves undefined or ends by `exit(1)` is an error of type `Crash`, so that a
theorem saying an operation succeeds also says that it stays inside the array
and never divides by zero.
-/

namespace SystemsProjects
namespace RingBuffer

open Lib

/-- How a call can fail to return. -/
inductive Crash where
  | exit1
  | outOfBounds
  | divisionByZero
  deriving DecidableEq, Repr

/-- `struct queue`.  The list `data` is the allocated array. -/
structure Queue where
  back : ℕ
  front : ℕ
  size : ℕ
  capacity : ℕ
  data : List ℤ
  deriving DecidableEq, Repr

/-- Unsigned addition on 32 bits. -/
def uintAdd (a b : ℕ) : ℕ := (a + b) % 2 ^ 32

/-- The `%` operator. -/
def uintMod (a b : ℕ) : Except Crash ℕ :=
  if b = 0 then .error .divisionByZero else .ok (a % b)

/-- The assignment `data[i] = item`. -/
def writeAt (data : List ℤ) (i : ℕ) (item : ℤ) : Except Crash (List ℤ) :=
  if i < data.length then .ok (data.set i item) else .error .outOfBounds

/-- `create_queue`: the array is fresh from `malloc`, so its cells hold whatever
the heap held before, and that is the argument `heap`. -/
def createQueue (capacity : ℕ) (heap : ℕ → ℤ) : Queue where
  back := 0
  front := 0
  size := 0
  capacity := capacity
  data := (List.range capacity).map heap

/-- `queue_empty`; the pointer is `none` for `NULL`. -/
def queueEmpty : Option Queue → Except Crash ℤ
  | none => .error .exit1
  | some q => if q.size = 0 then .ok 1 else .ok 0

/-- `queue_full`. -/
def queueFull : Option Queue → Except Crash ℤ
  | none => .error .exit1
  | some q => if q.size = q.capacity then .ok 1 else .ok 0

/-- `queue_enqueue`: the queue after the call and the value returned. -/
def queueEnqueue (q : Option Queue) (item : ℤ) : Except Crash (Queue × ℤ) :=
  match q with
  | none => .error .exit1
  | some q => do
    let full ← queueFull (some q)
    if full = 1 then
      pure (q, -1)
    else
      let data ← writeAt q.data q.back item
      let back ← uintMod (uintAdd q.back 1) q.capacity
      pure ({ q with size := uintAdd q.size 1, data := data, back := back }, 0)

/-- `queue_dequeue`.  The returned value is the constant of the last line of the
source, not the item at the front. -/
def queueDequeue (q : Option Queue) : Except Crash (Queue × ℤ) :=
  match q with
  | none => .error .exit1
  | some q =>
    if q.size = 0 then
      .error .exit1
    else do
      let front ← uintMod (uintAdd q.front 1) q.capacity
      -- `q->size--` on an unsigned counter
      pure ({ q with size := uintAdd q.size (2 ^ 32 - 1), front := front }, 99999)

/-- `queue_size`. -/
def queueSize : Option Queue → Except Crash ℕ
  | none => .error .exit1
  | some q => .ok q.size

/-- The calls of a program that owns a queue. -/
inductive QueueOp where
  | enqueue (item : ℤ)
  | dequeue
  deriving DecidableEq, Repr

/-- One call on a queue that exists. -/
def queueStep (q : Queue) : QueueOp → Except Crash (Queue × ℤ)
  | .enqueue item => queueEnqueue (some q) item
  | .dequeue => queueDequeue (some q)

theorem queueEnqueue_of_full {q : Queue} (h : q.size = q.capacity) (item : ℤ) :
    queueEnqueue (some q) item = .ok (q, -1) := by
  simp [queueEnqueue, queueFull, h]

theorem queueEnqueue_of_not_full {q : Queue} (h : q.size ≠ q.capacity)
    (hback : q.back < q.data.length) (hcap : q.capacity ≠ 0) (item : ℤ) :
    queueEnqueue (some q) item =
      .ok ({ q with
        size := uintAdd q.size 1
        data := q.data.set q.back item
        back := uintAdd q.back 1 % q.capacity }, 0) := by
  simp [queueEnqueue, queueFull, writeAt, uintMod, h, hback, hcap]

theorem queueDequeue_of_empty {q : Queue} (h : q.size = 0) :
    queueDequeue (some q) = .error .exit1 := by
  simp [queueDequeue, h]

theorem queueDequeue_of_pos {q : Queue} (h : q.size ≠ 0) (hcap : q.capacity ≠ 0) :
    queueDequeue (some q) =
      .ok ({ q with
        size := uintAdd q.size (2 ^ 32 - 1)
        front := uintAdd q.front 1 % q.capacity }, 99999) := by
  simp [queueDequeue, uintMod, h, hcap]

end RingBuffer
end SystemsProjects

import SystemsProjects.DataStructures.RingBuffer

/-!
# The ring buffer is a bounded queue, and what its removals return

The purpose of `myqueue.h` is a first-in first-out queue of at most `capacity`
items.  `boundedStep` says that directly, on a list, and `Represents` is the
relation between the list and the record: the list is what one reads from the
array by walking `size` cells from `front`, wrapping at `capacity`.

* `Represents.enqueue`, `Represents.refuse` and `Represents.dequeue` are the
  step lemmas, one for each thing an operation can do.
* `ringBuffer_refines` is the refinement over whole runs.
* `fifo_iff` is about the values *returned* by `queue_dequeue`.  The refinement
  says nothing about them, since the code returns a constant; a run is
  first-in first-out exactly when every item it removes is that constant.
-/

namespace SystemsProjects
namespace RingBuffer

open Lib

/-! ## The bounded queue -/

/-- The answers of the bounded queue. -/
inductive BoundedAnswer where
  | refused
  | accepted
  | removed (item : ℤ)
  deriving DecidableEq, Repr

/-- A queue of at most `capacity` items.  Removing from an empty queue is not a
call of the abstract interface. -/
def boundedStep (capacity : ℕ) :
    List ℤ → QueueOp → Except Unit (List ℤ × BoundedAnswer)
  | items, .enqueue item =>
      if items.length = capacity then .ok (items, .refused)
      else .ok (items ++ [item], .accepted)
  | [], .dequeue => .error ()
  | item :: items, .dequeue => .ok (items, .removed item)

/-- What an enqueue must return; the abstract queue does not fix the value that
a dequeue returns. -/
def BoundedAnswer.enqueueResult : BoundedAnswer → Option ℤ
  | .refused => some (-1)
  | .accepted => some 0
  | .removed _ => none

/-- The part of a returned value that `enqueueResult` speaks about. -/
def observed : QueueOp → ℤ → Option ℤ
  | .enqueue _, r => some r
  | .dequeue, _ => none

/-! ## The representation -/

/-- The record `q` holds `items`, in order, in `capacity` cells. -/
structure Represents (capacity : ℕ) (q : Queue) (items : List ℤ) : Prop where
  capacity_eq : q.capacity = capacity
  length_data : q.data.length = capacity
  size_eq : q.size = items.length
  size_le : items.length ≤ capacity
  front_lt : q.front = 0 ∨ q.front < capacity
  back_eq : q.back = (q.front + items.length) % capacity
  read : ∀ i < items.length, q.data[(q.front + i) % capacity]? = items[i]?

/-- Below two revolutions the remainder is a subtraction. -/
theorem mod_of_lt_add {a c : ℕ} (h : a < c + c) : a % c = if a < c then a else a - c := by
  split
  · rename_i hlt
    exact Nat.mod_eq_of_lt hlt
  · rename_i hge
    rw [Nat.mod_eq_sub_mod (by omega), Nat.mod_eq_of_lt (by omega)]

/-- Distinct offsets of less than one revolution are distinct cells. -/
theorem mod_ne_mod {front i j c : ℕ} (hf : front < c) (hij : i < j) (hj : j < c) :
    (front + i) % c ≠ (front + j) % c := by
  rw [mod_of_lt_add (by omega), mod_of_lt_add (by omega)]
  split <;> split <;> omega

/-- Moving the front by one cell moves every offset by one. -/
theorem succ_mod_add_mod (front i c : ℕ) :
    ((front + 1) % c + i) % c = (front + (i + 1)) % c := by
  rw [Nat.mod_add_mod]
  congr 1
  omega

theorem represents_createQueue (capacity : ℕ) (heap : ℕ → ℤ) :
    Represents capacity (createQueue capacity heap) [] where
  capacity_eq := rfl
  length_data := by simp [createQueue]
  size_eq := rfl
  size_le := Nat.zero_le _
  front_lt := Or.inl rfl
  back_eq := by simp [createQueue]
  read := fun i hi => absurd hi (Nat.not_lt_zero i)

variable {capacity : ℕ} {q : Queue} {items : List ℤ}

/-- A queue with a free cell has both indices inside the array. -/
theorem Represents.front_lt_capacity (h : Represents capacity q items)
    (hpos : 0 < capacity) : q.front < capacity := by
  rcases h.front_lt with hf | hf
  · omega
  · exact hf

theorem Represents.back_lt (h : Represents capacity q items) (hpos : 0 < capacity) :
    q.back < capacity := by
  rw [h.back_eq]
  exact Nat.mod_lt _ hpos

/-- **A full queue refuses, and nothing changes.** -/
theorem Represents.refuse (h : Represents capacity q items)
    (hfull : items.length = capacity) (item : ℤ) :
    queueEnqueue (some q) item = .ok (q, -1) :=
  queueEnqueue_of_full (by rw [h.size_eq, h.capacity_eq, hfull]) item

/-- **An enqueue on a queue that is not full.**  The new cell is at offset
`items.length`, which no item already there occupies. -/
theorem Represents.enqueue (hcap : capacity < 2 ^ 32) (h : Represents capacity q items)
    (hroom : items.length ≠ capacity) (item : ℤ) :
    ∃ q', queueEnqueue (some q) item = .ok (q', 0) ∧
      Represents capacity q' (items ++ [item]) := by
  have hlt : items.length < capacity := lt_of_le_of_ne h.size_le hroom
  have hpos : 0 < capacity := by omega
  have hfront := h.front_lt_capacity hpos
  have hback := h.back_lt hpos
  have hsize : uintAdd q.size 1 = items.length + 1 := by
    rw [h.size_eq, uintAdd, Nat.mod_eq_of_lt (by omega)]
  have hnext : uintAdd q.back 1 = q.back + 1 := by
    rw [uintAdd, Nat.mod_eq_of_lt (by omega)]
  refine ⟨_, queueEnqueue_of_not_full (by rw [h.size_eq, h.capacity_eq]; exact hroom)
    (by rw [h.length_data]; exact hback) (by rw [h.capacity_eq]; omega) item, ?_⟩
  refine
    { capacity_eq := h.capacity_eq
      length_data := by simpa using h.length_data
      size_eq := by simpa using hsize
      size_le := by rw [List.length_append, List.length_singleton]; exact hlt
      front_lt := h.front_lt
      back_eq := ?_
      read := ?_ }
  · show uintAdd q.back 1 % q.capacity = (q.front + (items ++ [item]).length) % capacity
    rw [hnext, h.capacity_eq, h.back_eq, Nat.mod_add_mod, List.length_append,
      List.length_singleton, Nat.add_assoc]
  · intro i hi
    rw [List.length_append, List.length_singleton] at hi
    show (q.data.set q.back item)[(q.front + i) % capacity]? = (items ++ [item])[i]?
    rcases Nat.lt_succ_iff_lt_or_eq.mp hi with hold | rfl
    · have hne : q.back ≠ (q.front + i) % capacity := by
        rw [h.back_eq]
        exact (mod_ne_mod hfront hold hlt).symm
      rw [List.getElem?_set_ne hne, h.read i hold, List.getElem?_append_left hold]
    · rw [← h.back_eq, List.getElem?_set_self (by rw [h.length_data]; exact hback)]
      simp

/-- **A dequeue on a queue that is not empty** drops the front item; the value it
returns is the constant of the source. -/
theorem Represents.dequeue (hcap : capacity < 2 ^ 32) {item : ℤ}
    (h : Represents capacity q (item :: items)) :
    ∃ q', queueDequeue (some q) = .ok (q', 99999) ∧ Represents capacity q' items := by
  have hlen : (item :: items).length = items.length + 1 := List.length_cons
  have hle : items.length + 1 ≤ capacity := by rw [← hlen]; exact h.size_le
  have hpos : 0 < capacity := by omega
  have hfront := h.front_lt_capacity hpos
  have hnext : uintAdd q.front 1 = q.front + 1 := by
    rw [uintAdd, Nat.mod_eq_of_lt (by omega)]
  have hsize : uintAdd q.size (2 ^ 32 - 1) = items.length := by
    rw [h.size_eq, hlen, uintAdd]
    omega
  refine ⟨_, queueDequeue_of_pos (by rw [h.size_eq, hlen]; omega)
    (by rw [h.capacity_eq]; omega), ?_⟩
  refine
    { capacity_eq := h.capacity_eq
      length_data := h.length_data
      size_eq := hsize
      size_le := by omega
      front_lt := Or.inr ?_
      back_eq := ?_
      read := ?_ }
  · show uintAdd q.front 1 % q.capacity < capacity
    rw [h.capacity_eq]
    exact Nat.mod_lt _ hpos
  · show q.back = (uintAdd q.front 1 % q.capacity + items.length) % capacity
    rw [hnext, h.capacity_eq, succ_mod_add_mod, h.back_eq, hlen]
  · intro i hi
    show q.data[(uintAdd q.front 1 % q.capacity + i) % capacity]? = items[i]?
    rw [hnext, h.capacity_eq, succ_mod_add_mod, h.read (i + 1) (by omega),
      List.getElem?_cons_succ]

/-- **One step of the code matches one step of the bounded queue.** -/
theorem Represents.step (hcap : capacity < 2 ^ 32) {op : QueueOp} {items' : List ℤ}
    {answer : BoundedAnswer} (h : Represents capacity q items)
    (habs : boundedStep capacity items op = .ok (items', answer)) :
    ∃ q' r, queueStep q op = .ok (q', r) ∧ Represents capacity q' items' ∧
      observed op r = answer.enqueueResult := by
  cases op with
  | enqueue item =>
    rw [boundedStep] at habs
    split at habs
    · rename_i hfull
      obtain ⟨rfl, rfl⟩ : items = items' ∧ BoundedAnswer.refused = answer := by
        simpa using habs
      exact ⟨q, -1, h.refuse hfull item, h, rfl⟩
    · rename_i hroom
      obtain ⟨rfl, rfl⟩ : items ++ [item] = items' ∧ BoundedAnswer.accepted = answer := by
        simpa using habs
      obtain ⟨q', hq', hrep⟩ := h.enqueue hcap hroom item
      exact ⟨q', 0, hq', hrep, rfl⟩
  | dequeue =>
    cases items with
    | nil => cases habs
    | cons item rest =>
      obtain ⟨rfl, rfl⟩ : rest = items' ∧ BoundedAnswer.removed item = answer := by
        simpa [boundedStep] using habs
      obtain ⟨q', hq', hrep⟩ := h.dequeue hcap
      exact ⟨q', 99999, hq', hrep, rfl⟩

/-- **The ring buffer refines the bounded queue.**  Every run of the bounded queue
is a run of the code from `create_queue`; it returns what the bounded queue
answers, its cells are the items in order, and the three observers agree. -/
theorem ringBuffer_refines (capacity : ℕ) (hcap : capacity < 2 ^ 32) (heap : ℕ → ℤ)
    (ops : List QueueOp) (items : List ℤ) (answers : List BoundedAnswer)
    (habs : exec (boundedStep capacity) [] ops = .ok (items, answers)) :
    ∃ q returned, exec queueStep (createQueue capacity heap) ops = .ok (q, returned) ∧
      List.zipWith observed ops returned = answers.map BoundedAnswer.enqueueResult ∧
      (∀ i < q.size, q.data[(q.front + i) % q.capacity]? = items[i]?) ∧
      queueSize (some q) = .ok items.length ∧
      queueEmpty (some q) = .ok (if items = [] then 1 else 0) ∧
      queueFull (some q) = .ok (if items.length = capacity then 1 else 0) ∧
      (∀ item, items.length = capacity → queueEnqueue (some q) item = .ok (q, -1)) ∧
      (items = [] → queueDequeue (some q) = .error .exit1) := by
  obtain ⟨q, returned, hexec, h, hall⟩ :=
    exec_refines (R := Represents capacity)
      (S := fun op r answer => observed op r = answer.enqueueResult)
      (fun _ _ _ _ _ hR hg => hR.step hcap hg) (represents_createQueue capacity heap) habs
  refine ⟨q, returned, hexec, zipWith_eq_map_of_forall₂ hall, ?_, ?_, ?_, ?_,
    fun item hfull => h.refuse hfull item, ?_⟩
  · intro i hi
    rw [h.capacity_eq]
    exact h.read i (by rw [← h.size_eq]; exact hi)
  · rw [queueSize, h.size_eq]
  · rw [queueEmpty, h.size_eq, apply_ite Except.ok]
    simp only [List.length_eq_zero_iff]
  · rw [queueFull, h.size_eq, h.capacity_eq, apply_ite Except.ok]
  · rintro rfl
    exact queueDequeue_of_empty h.size_eq

/-- The refinement at capacity two, through a refusal, a removal and a wrap. -/
theorem ringBuffer_refines_two :
    ∃ q returned, exec queueStep (createQueue 2 fun _ => 0)
        [.enqueue 5, .enqueue 6, .enqueue 7, .dequeue, .enqueue 8] = .ok (q, returned) ∧
      List.zipWith observed [.enqueue 5, .enqueue 6, .enqueue 7, .dequeue, .enqueue 8]
        returned = [some 0, some 0, some (-1), none, some 0] ∧
      (∀ i < q.size, q.data[(q.front + i) % q.capacity]? = [(6 : ℤ), 8][i]?) := by
  obtain ⟨q, returned, hexec, hobs, hread, -⟩ :=
    ringBuffer_refines 2 (by decide) (fun _ => 0)
      [.enqueue 5, .enqueue 6, .enqueue 7, .dequeue, .enqueue 8] [6, 8]
      [.accepted, .accepted, .refused, .removed 5, .accepted] (by rfl)
  exact ⟨q, returned, hexec, hobs, hread⟩

/-! ## The values returned -/

/-- The values that the dequeues of a run returned, in order. -/
def dequeued (tr : List (QueueOp × ℤ)) : List ℤ :=
  tr.filterMap fun p => if p.1 = .dequeue then some p.2 else none

/-- The items of the enqueues of a run that returned `0`, in order. -/
def enqueued (tr : List (QueueOp × ℤ)) : List ℤ :=
  tr.filterMap fun p =>
    match p.1 with
    | .enqueue item => if p.2 = 0 then some item else none
    | .dequeue => none

/-- **First in, first out**: the `k`-th dequeue returned the item of the `k`-th
successful enqueue, for every `k`. -/
def Fifo (tr : List (QueueOp × ℤ)) : Prop :=
  ∀ k < (dequeued tr).length, (dequeued tr)[k]? = (enqueued tr)[k]?

instance (tr : List (QueueOp × ℤ)) : Decidable (Fifo tr) :=
  inferInstanceAs (Decidable (∀ k < (dequeued tr).length, _))

/-- The items that a bounded queue holding `items` removes while it is given the
calls `ops`, in order.  A removal from the empty queue is skipped. -/
def removedItems (capacity : ℕ) : List ℤ → List QueueOp → List ℤ
  | _, [] => []
  | items, .enqueue item :: ops =>
      if items.length = capacity then removedItems capacity items ops
      else removedItems capacity (items ++ [item]) ops
  | [], .dequeue :: ops => removedItems capacity [] ops
  | item :: items, .dequeue :: ops => item :: removedItems capacity items ops

/-- What a run of the code returned, in terms of the bounded queue: the accepted
items are the removed ones followed by those still held, and every removal
returned the constant. -/
theorem returned_of_exec (hcap : capacity < 2 ^ 32) :
    ∀ {ops : List QueueOp} {q q' : Queue} {items : List ℤ} {returned : List ℤ},
      Represents capacity q items → exec queueStep q ops = .ok (q', returned) →
      dequeued (ops.zip returned) =
          List.replicate (removedItems capacity items ops).length 99999 ∧
        ∃ left, items ++ enqueued (ops.zip returned) =
          removedItems capacity items ops ++ left := by
  intro ops
  induction ops with
  | nil =>
    intro q q' items returned _ _
    exact ⟨by simp [dequeued, removedItems], items, by simp [enqueued, removedItems]⟩
  | cons op ops ih =>
    intro q q' items returned h hexec
    obtain ⟨q₁, r, rest, hstep, hrest, rfl⟩ := exec_cons_ok.mp hexec
    cases op with
    | enqueue item =>
      by_cases hfull : items.length = capacity
      · -- refused: neither list grows
        obtain ⟨rfl, rfl⟩ : q = q₁ ∧ -1 = r := by
          simpa [queueStep, h.refuse hfull item] using hstep
        have ih' := ih h hrest
        simpa [dequeued, enqueued, removedItems, hfull] using ih'
      · obtain ⟨q₂, hq₂, hrep⟩ := h.enqueue hcap hfull item
        obtain ⟨rfl, rfl⟩ : q₂ = q₁ ∧ 0 = r := by
          simpa [queueStep, hq₂] using hstep
        have ih' := ih hrep hrest
        simpa [dequeued, enqueued, removedItems, hfull] using ih'
    | dequeue =>
      cases items with
      | nil =>
        exact absurd hstep (by simp [queueStep, queueDequeue_of_empty h.size_eq])
      | cons item items =>
        obtain ⟨q₂, hq₂, hrep⟩ := h.dequeue hcap
        obtain ⟨rfl, rfl⟩ : q₂ = q₁ ∧ 99999 = r := by
          simpa [queueStep, hq₂] using hstep
        obtain ⟨hdeq, left, hleft⟩ := ih hrep hrest
        refine ⟨?_, left, ?_⟩
        · rw [removedItems, List.length_cons, List.replicate_succ, ← hdeq]
          rfl
        · rw [removedItems, List.cons_append, List.cons_append, ← hleft]
          rfl

/-- A constant list agrees with the start of a list exactly when the start is
constant. -/
theorem replicate_agrees_iff (c : ℤ) (removed left : List ℤ) :
    (∀ k < (List.replicate removed.length c).length,
        (List.replicate removed.length c)[k]? = (removed ++ left)[k]?) ↔
      ∀ x ∈ removed, x = c := by
  simp only [List.length_replicate]
  constructor
  · intro h x hx
    obtain ⟨k, hk, rfl⟩ := List.getElem_of_mem hx
    have hk' := h k hk
    rw [List.getElem?_replicate_of_lt hk, List.getElem?_append_left hk,
      List.getElem?_eq_getElem hk] at hk'
    exact (Option.some.inj hk').symm
  · intro h k hk
    rw [List.getElem?_replicate_of_lt hk, List.getElem?_append_left hk,
      List.getElem?_eq_getElem hk, h _ (List.getElem_mem hk)]

/-- **When the returned values are first-in first-out.**  A run of the code from
`create_queue` returns the enqueued items in order exactly when every item that
the bounded queue would remove is the constant `99999`. -/
theorem fifo_iff (capacity : ℕ) (hcap : capacity < 2 ^ 32) (heap : ℕ → ℤ)
    (ops : List QueueOp) (q : Queue) (returned : List ℤ)
    (hexec : exec queueStep (createQueue capacity heap) ops = .ok (q, returned)) :
    Fifo (ops.zip returned) ↔ ∀ x ∈ removedItems capacity [] ops, x = 99999 := by
  obtain ⟨hdeq, left, hleft⟩ :=
    returned_of_exec hcap (represents_createQueue capacity heap) hexec
  rw [List.nil_append] at hleft
  rw [Fifo, hdeq, hleft]
  exact replicate_agrees_iff 99999 _ left

/-- A queue of two that refuses an item and wraps around: it is first-in first-out while the
items are the constant itself, and no longer when the `7` is removed. -/
theorem fifo_iff_wrapped :
    Fifo [(.enqueue 99999, 0), (.enqueue 99999, 0), (.enqueue 5, -1), (.dequeue, 99999),
        (.enqueue 7, 0), (.dequeue, 99999)] ∧
      ¬ Fifo [(.enqueue 99999, 0), (.enqueue 99999, 0), (.enqueue 5, -1), (.dequeue, 99999),
        (.enqueue 7, 0), (.dequeue, 99999), (.dequeue, 99999)] :=
  ⟨(fifo_iff 2 (by decide) (fun _ => 0) [.enqueue 99999, .enqueue 99999, .enqueue 5, .dequeue,
      .enqueue 7, .dequeue] _ [0, 0, -1, 99999, 0, 99999] rfl).mpr (by decide),
    fun h => absurd ((fifo_iff 2 (by decide) (fun _ => 0) [.enqueue 99999, .enqueue 99999,
      .enqueue 5, .dequeue, .enqueue 7, .dequeue, .dequeue] _ [0, 0, -1, 99999, 0, 99999, 99999]
      rfl).mp h) (by decide)⟩

/-- **The code is not first-in first-out**: `unitTest1` of `main.c` enqueues `1`
and gets `99999` back. -/
theorem not_fifo :
    ¬ ∀ (capacity : ℕ), capacity < 2 ^ 32 → ∀ (heap : ℕ → ℤ) (ops : List QueueOp)
      (q : Queue) (returned : List ℤ),
      exec queueStep (createQueue capacity heap) ops = .ok (q, returned) →
      Fifo (ops.zip returned) := by
  intro h
  have hrun := h 1 (by decide) (fun _ => 0) [.enqueue 1, .dequeue]
    ⟨0, 0, 0, 1, [1]⟩ [0, 99999] (by rfl)
  exact absurd hrun (by decide)

end RingBuffer
end SystemsProjects

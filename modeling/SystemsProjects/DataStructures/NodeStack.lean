import SystemsProjects.Lib.Exec

/-!
# The linked stack of `mystack.h`

`Assignment2_C_Data_Structures/part2/mystack.h` keeps a stack of `int`s as a
linked list with the newest node at the head, a signed counter and an unsigned
capacity of at most `MAX_DEPTH`.

The nodes live in an explicit heap, a partial map from addresses to nodes: an
allocation chooses an address where the heap is undefined, and `free` makes it
undefined again.  Which address `malloc` returns is not up to the code, so it is
part of the input of a push, and `Allocatable` is what `malloc` promises about it.
-/

namespace SystemsProjects
namespace NodeStack

open Lib

/-- How a call can fail to return: it ends the program, or it follows a pointer
to no live node. -/
inductive Crash where
  | exit1
  | badPointer
  deriving DecidableEq, Repr

/-- `struct node`; the address `0` is `NULL`. -/
structure Node where
  data : ℤ
  next : ℕ
  deriving DecidableEq, Repr

/-- `struct stack`. -/
structure Stack where
  count : ℤ
  capacity : ℕ
  head : ℕ
  deriving DecidableEq, Repr

/-- The live nodes. -/
abbrev Heap := ℕ → Option Node

/-- A stack and the heap its nodes live in. -/
structure State where
  stack : Stack
  heap : Heap

/-- `MAX_DEPTH`. -/
def maxDepth : ℕ := 32

/-- `create_stack`.  The second test of the source, `capacity<0`, is never true of
an `unsigned int`. -/
def createStack (capacity : ℕ) : Except Crash Stack :=
  if maxDepth < capacity then .error .exit1
  else .ok { count := 0, capacity := capacity, head := 0 }

/-- `stack_empty`; the pointer is `none` for `NULL`. -/
def stackEmpty : Option Stack → Except Crash ℤ
  | none => .error .exit1
  | some s => if s.count = 0 then .ok 1 else .ok 0

/-- `stack_full`.  The comparison converts the signed counter to `unsigned int`. -/
def stackFull : Option Stack → Except Crash ℤ
  | none => .error .exit1
  | some s => if s.count % 2 ^ 32 = s.capacity then .ok 1 else .ok 0

/-- `stack_enqueue`, with `addr` the address that `malloc` returns if it is
called. -/
def stackEnqueue (s : Option Stack) (heap : Heap) (item : ℤ) (addr : ℕ) :
    Except Crash (Option Stack × Heap × ℤ) :=
  match s with
  | none => pure (none, heap, -1)
  | some s => do
    let full ← stackFull (some s)
    if full = 1 then
      pure (some s, heap, -1)
    else
      let empty ← stackEmpty (some s)
      if empty = 1 then
        let newnode : Node := { data := item, next := 0 }
        pure (some { s with head := addr, count := s.count + 1 },
          Function.update heap addr (some newnode), 0)
      else
        let newHead : Node := { data := item, next := s.head }
        pure (some { s with head := addr, count := s.count + 1 },
          Function.update heap addr (some newHead), 0)

/-- `stack_dequeue`.  The returned value is the constant of the last line of the
source, not the item of the node that is freed. -/
def stackDequeue (s : Option Stack) (heap : Heap) : Except Crash (Stack × Heap × ℤ) :=
  match s with
  | none => .error .exit1
  | some s => do
    let empty ← stackEmpty (some s)
    if empty = 1 then
      .error .exit1
    else
      match heap s.head with
      | none => .error .badPointer
      | some top =>
        pure ({ s with head := top.next, count := s.count - 1 },
          Function.update heap s.head none, 9999999)

/-- `stack_size`: the counter, converted to `unsigned int`. -/
def stackSize : Option Stack → Except Crash ℤ
  | none => .error .exit1
  | some s => .ok (s.count % 2 ^ 32)

/-- The calls of a program that owns a stack. -/
inductive StackOp where
  | push (item : ℤ) (addr : ℕ)
  | pop
  deriving DecidableEq, Repr

/-- One call on a stack that exists. -/
def stackStep (s : State) : StackOp → Except Crash (State × ℤ)
  | .push item addr =>
    match stackEnqueue (some s.stack) s.heap item addr with
    | .ok (some stack, heap, r) => .ok ({ stack := stack, heap := heap }, r)
    | .ok (none, _, _) => .error .badPointer
    | .error e => .error e
  | .pop =>
    match stackDequeue (some s.stack) s.heap with
    | .ok (stack, heap, r) => .ok ({ stack := stack, heap := heap }, r)
    | .error e => .error e

/-- What `malloc` promises of the address it returns. -/
def Allocatable (s : State) : StackOp → Prop
  | .push _ addr => addr ≠ 0 ∧ s.heap addr = none
  | .pop => True

/-- A call, with an address that `malloc` may return. -/
def Step (s : State) (op : StackOp) (r : ℤ) (s' : State) : Prop :=
  Allocatable s op ∧ stackStep s op = .ok (s', r)

variable {s : State}

theorem stackFull_of_full (h : s.stack.count % 2 ^ 32 = s.stack.capacity) :
    stackFull (some s.stack) = .ok 1 := if_pos h

theorem stackFull_of_not_full (h : s.stack.count % 2 ^ 32 ≠ s.stack.capacity) :
    stackFull (some s.stack) = .ok 0 := if_neg h

theorem stackStep_push_of_full (h : s.stack.count % 2 ^ 32 = s.stack.capacity)
    (item : ℤ) (addr : ℕ) : stackStep s (.push item addr) = .ok (s, -1) := by
  simp [stackStep, stackEnqueue, stackFull_of_full h]

/-- The two branches of a push build the same node when the list of an empty
stack is empty. -/
theorem stackStep_push_of_not_full (h : s.stack.count % 2 ^ 32 ≠ s.stack.capacity)
    (hempty : s.stack.count = 0 → s.stack.head = 0) (item : ℤ) (addr : ℕ) :
    stackStep s (.push item addr) =
      .ok ({ stack := { s.stack with head := addr, count := s.stack.count + 1 }
             heap := Function.update s.heap addr
              (some { data := item, next := s.stack.head }) }, 0) := by
  by_cases hcount : s.stack.count = 0
  · simp [stackStep, stackEnqueue, stackFull_of_not_full h, stackEmpty, hcount,
      hempty hcount]
  · simp [stackStep, stackEnqueue, stackFull_of_not_full h, stackEmpty, hcount]

theorem stackStep_pop_of_empty (h : s.stack.count = 0) :
    stackStep s .pop = .error .exit1 := by
  simp [stackStep, stackDequeue, stackEmpty, h]

theorem stackStep_pop_of_node (h : s.stack.count ≠ 0) {top : Node}
    (htop : s.heap s.stack.head = some top) :
    stackStep s .pop =
      .ok ({ stack := { s.stack with head := top.next, count := s.stack.count - 1 }
             heap := Function.update s.heap s.stack.head none }, 9999999) := by
  simp [stackStep, stackDequeue, stackEmpty, h, htop]

end NodeStack
end SystemsProjects

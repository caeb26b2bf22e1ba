import SystemsProjects.DataStructures.NodeStackLifo
import SystemsProjects.Lib.Loop

/-!
# The nodes of a stack, and how they are freed

`free_stack` walks down the chain and frees every node behind it, and the record of the
stack last.  Reading a node that is not live stops with `badPointer`, and so does freeing
one, so a run of it that comes through has touched no node after freeing it.  `freed` is a
history variable, the nodes that were freed, oldest first.

`Represents` is what the record of a stack says about the heap in every state of a run: the
chain from `head` ends, `count` is its length, and its nodes are those that the stack has
allocated and not freed.  `stack_representation` adds that `free_stack` gives back just
these, each once, and leaves the heap in which the stack was created.
-/

namespace SystemsProjects
namespace NodeStack

open Lib

/-! ## The code -/

/-- How `free_stack` can fail to return. -/
inductive FreeFault where
  | crash (c : Crash)
  /-- the loop does not come to NULL -/
  | diverges
  deriving DecidableEq, Repr

/-- What is left while a stack is freed: its record, until that is freed, and the heap. -/
structure Remains where
  stack : Option Stack
  heap : Heap
  freed : List ℕ

/-- `free` of a node. -/
def Remains.freeNode (r : Remains) (previous : ℕ) : Except FreeFault Remains :=
  match r.heap previous with
  | none => .error (.crash .badPointer)
  | some _ =>
    pure { r with heap := Function.update r.heap previous none, freed := r.freed ++ [previous] }

/-- The body of `while(s->head != NULL)`. -/
def freeStackBody (r : Remains) : Except FreeFault (Remains ⊕ Remains) :=
  match r.stack with
  | none => .error (.crash .badPointer)
  | some s =>
    if s.head = 0 then pure (.inr r)
    else
      let previous := s.head
      match r.heap s.head with
      | none => .error (.crash .badPointer)
      | some top => do
        let r ← Remains.freeNode { r with stack := some { s with head := top.next } } previous
        pure (.inl r)

/-- `free_stack`.  A loop that goes on for more rounds than there are addresses does not
end. -/
def freeStack (s : Option Stack) (heap : Heap) : Except FreeFault Remains :=
  match s with
  | none => .error (.crash .exit1)
  | some s => do
    let r ← loop .diverges freeStackBody (2 ^ 64) ⟨some s, heap, []⟩
    pure { r with stack := none }

/-! ## What is claimed -/

/-- **The record and the heap agree**: the chain from `head` visits `nodes`, which are the
nodes that this stack has allocated and not freed. -/
structure Represents (heap₀ : Heap) (capacity : ℕ) (s : State) (nodes : List ℕ) : Prop where
  capacity_eq : s.stack.capacity = capacity
  chain : Visits 0 (nextOf s.heap) s.stack.head nodes
  acyclic : nodes.Nodup
  count_eq : s.stack.count = nodes.length
  length_le : nodes.length ≤ capacity
  live : ∀ a, (s.heap a ≠ none ∧ heap₀ a = none) ↔ a ∈ nodes

variable {heap₀ : Heap} {capacity : ℕ} {s : State} {items : List ℤ} {nodes : List ℕ}

theorem Holds.represents (h : Holds heap₀ capacity s items nodes) :
    Represents heap₀ capacity s nodes where
  capacity_eq := h.capacity_eq
  chain := h.visits
  acyclic := h.visits.nodup
  count_eq := by rw [h.count_eq, h.length_nodes]
  length_le := by
    rw [h.length_nodes]
    exact h.length_le
  live a := by
    constructor
    · rintro ⟨hlive, hnew⟩
      by_contra hnot
      rw [h.frame a hnot] at hlive
      exact hlive hnew
    · exact fun ha => ⟨h.heap_ne_none ha, h.fresh a ha⟩

/-! ## Freeing -/

/-- The nodes `rest` of the chain are left. -/
structure Freeing (heap₀ : Heap) (nodes rest : List ℕ) (r : Remains) : Prop where
  record : ∃ s, r.stack = some s ∧ Visits 0 (nextOf r.heap) s.head rest
  freed : r.freed ++ rest = nodes
  live : ∀ a ∈ rest, r.heap a ≠ none
  fresh : ∀ a ∈ rest, heap₀ a = none
  frame : ∀ a, a ∉ rest → r.heap a = heap₀ a

theorem Holds.freeing (h : Holds heap₀ capacity s items nodes) :
    Freeing heap₀ nodes nodes ⟨some s.stack, s.heap, []⟩ where
  record := ⟨s.stack, rfl, h.visits⟩
  freed := List.nil_append nodes
  live _ ha := h.heap_ne_none ha
  fresh := h.fresh
  frame := h.frame

/-- One round frees the first node that is left. -/
theorem Freeing.round {a : ℕ} {rest : List ℕ} {r : Remains}
    (f : Freeing heap₀ nodes (a :: rest) r) :
    ∃ r', freeStackBody r = .ok (.inl r') ∧ Freeing heap₀ nodes rest r' := by
  obtain ⟨stack, hstack, hvisits⟩ := f.record
  obtain ⟨hhead, hnull, hrest⟩ := hvisits
  obtain ⟨top, htop⟩ := Option.ne_none_iff_exists'.mp (f.live a List.mem_cons_self)
  have hnext : nextOf r.heap a = top.next := by rw [nextOf, htop]; rfl
  have hfirst : a ∉ rest := by
    have hnodup : (a :: rest).Nodup := Visits.nodup ⟨rfl, hnull, hrest⟩
    exact (List.nodup_cons.mp hnodup).1
  have hother : ∀ b ∈ rest, b ≠ a := fun b hb hba => hfirst (hba ▸ hb)
  refine ⟨⟨some { stack with head := top.next }, Function.update r.heap a none, r.freed ++ [a]⟩,
    ?_, ?_⟩
  · rw [freeStackBody, hstack]
    dsimp only
    rw [hhead, if_neg hnull, htop]
    dsimp only
    rw [Remains.freeNode, htop]
    rfl
  · refine ⟨⟨_, rfl, ?_⟩, ?_, fun b hb => ?_, fun b hb => f.fresh b (List.mem_cons_of_mem a hb),
      fun b hb => ?_⟩
    · rw [hnext] at hrest
      exact hrest.congr fun b hb => nextOf_update_ne (hother b hb) none
    · rw [List.append_assoc]
      exact f.freed
    · show Function.update r.heap a none b ≠ none
      rw [Function.update_of_ne (hother b hb)]
      exact f.live b (List.mem_cons_of_mem a hb)
    · show Function.update r.heap a none b = heap₀ b
      by_cases hba : b = a
      · rw [hba, Function.update_self, f.fresh a List.mem_cons_self]
      · rw [Function.update_of_ne hba]
        exact f.frame b fun hmem => (List.mem_cons.mp hmem).elim hba hb

/-- With no node left the loop leaves, and the heap is the old one. -/
theorem Freeing.leave {r : Remains} (f : Freeing heap₀ nodes [] r) :
    freeStackBody r = .ok (.inr r) ∧ r.heap = heap₀ ∧ r.freed = nodes := by
  obtain ⟨stack, hstack, hhead⟩ := f.record
  refine ⟨?_, funext fun a => f.frame a List.not_mem_nil, ?_⟩
  · rw [freeStackBody, hstack]
    exact if_pos hhead
  · rw [← f.freed, List.append_nil]

/-- **`free_stack` frees the nodes of the chain**, each once. -/
theorem Holds.freeStack (h : Holds heap₀ capacity s items nodes) :
    NodeStack.freeStack (some s.stack) s.heap = .ok ⟨none, heap₀, nodes⟩ := by
  have hshort : nodes.length < 2 ^ 64 := by
    have hlen := h.length_le
    have hcap := h.capacity_le
    rw [maxDepth] at hcap
    rw [h.length_nodes]
    omega
  obtain ⟨r, hloop, hheap, hfreed⟩ : ∃ r,
      loop .diverges freeStackBody (2 ^ 64) ⟨some s.stack, s.heap, []⟩ = .ok r ∧
        r.heap = heap₀ ∧ r.freed = nodes := by
    refine loop_spec (I := Freeing heap₀ nodes) (fun r f => ?_) (fun a rest r f => ?_)
      h.freeing hshort
    · exact ⟨r, f.leave⟩
    · exact Or.inl f.round
  rw [NodeStack.freeStack, hloop, ok_bind, ← hheap, ← hfreed]
  rfl

/-! ## Every run -/

/-- A call returns, or it is a pop of the empty stack, which ends the program. -/
theorem Holds.call (h : Holds heap₀ capacity s items nodes) (op : StackOp)
    (hmalloc : Allocatable s op) :
    (∃ s' r, stackStep s op = .ok (s', r)) ∨
      op = .pop ∧ nodes = [] ∧ stackStep s op = .error .exit1 := by
  cases op with
  | push item addr =>
    left
    by_cases hfull : items.length = capacity
    · exact ⟨s, -1, h.refuse hfull item addr⟩
    · obtain ⟨s', hs', -⟩ := h.push hfull hmalloc
      exact ⟨s', 0, hs'⟩
  | pop =>
    cases items with
    | nil =>
      have hcount : s.stack.count = 0 := h.count_eq
      exact Or.inr ⟨rfl, List.length_eq_zero_iff.mp h.length_nodes,
        stackStep_pop_of_empty hcount⟩
    | cons item items =>
      obtain ⟨node, rest, rfl⟩ := List.exists_cons_of_length_eq_add_one h.length_nodes
      obtain ⟨s', hs', -⟩ := h.pop
      exact Or.inl ⟨s', 9999999, hs'⟩

/-- **The representation of a stack.**  In every state of every run on a stack from
`create_stack`, the record and the heap agree; no call touches a node that is not live; and
`free_stack` frees the nodes of the chain, each once and none of them read afterwards, so
that nothing of the stack is left. -/
theorem stack_representation (heap₀ : Heap) (capacity : ℕ) (stack : Stack)
    (hcreate : createStack capacity = .ok stack) (tr : List (StackOp × ℤ)) (s : State)
    (hrun : Run Step { stack := stack, heap := heap₀ } tr s) :
    ∃ nodes, Represents heap₀ capacity s nodes ∧
      (∀ op, Allocatable s op → (∃ s' r, stackStep s op = .ok (s', r)) ∨
        op = .pop ∧ nodes = [] ∧ stackStep s op = .error .exit1) ∧
      freeStack (some s.stack) s.heap = .ok ⟨none, heap₀, nodes⟩ := by
  obtain ⟨⟨nodes, h⟩, -⟩ := holds_of_run hrun (holds_createStack hcreate)
  exact ⟨nodes, h.represents, h.call, h.freeStack⟩

/-- Behind two pushes, one that is refused, a pop and another push there are two nodes to
free. -/
theorem stack_representation_refused :
    ∃ (tr : List (StackOp × ℤ)) (s : State), Run Step ⟨⟨0, 2, 0⟩, fun _ => none⟩ tr s ∧
      tr = [(.push 7 16, 0), (.push 9999999 24, 0), (.push 5 32, -1), (.pop, 9999999),
        (.push 9999999 40, 0)] ∧
      Represents (fun _ => none) 2 s [40, 16] ∧
      freeStack (some s.stack) s.heap = .ok ⟨none, fun _ => none, [40, 16]⟩ := by
  obtain ⟨nodes, hrep, -, hfree⟩ := stack_representation _ 2 _ rfl _ _ run_refused
  have hnodes : nodes = [40, 16] := hrep.chain.unique ⟨rfl, by decide, rfl, by decide, rfl⟩
  exact ⟨_, _, run_refused, rfl, hnodes ▸ hrep, hnodes ▸ hfree⟩

end NodeStack
end SystemsProjects

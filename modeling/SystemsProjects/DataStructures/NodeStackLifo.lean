import SystemsProjects.DataStructures.NodeStack
import SystemsProjects.Lib.NextChain

/-!
# The linked stack holds a list, and what its pops return

`Holds heap₀ capacity s items nodes` ties a state of `mystack.h` to the list of
its items, newest first: the chain from `head` visits `nodes`, the nodes carry
the items, the signed counter is their number, and outside the chain the heap is
the heap `heap₀` the stack was created in.

* `Holds.push`, `Holds.refuse` and `Holds.pop` are the step lemmas; together they
  say that a call on a stack that holds a list does not crash.
* `holds_of_run` carries the representation along a run.
* `lifo_iff` is about the values *returned*: a run is last-in first-out exactly
  when every item popped is the constant that `stack_dequeue` returns.
-/

namespace SystemsProjects
namespace NodeStack

open Lib

/-- The link of a node, `NULL` where there is no node. -/
def nextOf (heap : Heap) (a : ℕ) : ℕ := ((heap a).map Node.next).getD 0

/-- The item of a node. -/
def dataOf (heap : Heap) (a : ℕ) : Option ℤ := (heap a).map Node.data

theorem nextOf_update_ne {heap : Heap} {a b : ℕ} (h : b ≠ a) (v : Option Node) :
    nextOf (Function.update heap a v) b = nextOf heap b := by
  rw [nextOf, Function.update_of_ne h, nextOf]

theorem dataOf_update_ne {heap : Heap} {a b : ℕ} (h : b ≠ a) (v : Option Node) :
    dataOf (Function.update heap a v) b = dataOf heap b := by
  rw [dataOf, Function.update_of_ne h, dataOf]

/-- The state `s` holds the list `items`, newest first, in the chain `nodes`. -/
structure Holds (heap₀ : Heap) (capacity : ℕ) (s : State) (items : List ℤ)
    (nodes : List ℕ) : Prop where
  capacity_eq : s.stack.capacity = capacity
  capacity_le : capacity ≤ maxDepth
  count_eq : s.stack.count = items.length
  length_le : items.length ≤ capacity
  visits : Visits 0 (nextOf s.heap) s.stack.head nodes
  data : nodes.map (dataOf s.heap) = items.map some
  fresh : ∀ a ∈ nodes, heap₀ a = none
  frame : ∀ a, a ∉ nodes → s.heap a = heap₀ a

variable {heap₀ : Heap} {capacity : ℕ} {s : State} {items : List ℤ} {nodes : List ℕ}

theorem holds_createStack {stack : Stack} (h : createStack capacity = .ok stack) :
    Holds heap₀ capacity { stack := stack, heap := heap₀ } [] [] := by
  rw [createStack] at h
  split at h
  · cases h
  · rename_i hle
    cases h
    exact
      { capacity_eq := rfl
        capacity_le := Nat.le_of_not_lt hle
        count_eq := rfl
        length_le := Nat.zero_le _
        visits := rfl
        data := rfl
        fresh := fun _ ha => absurd ha List.not_mem_nil
        frame := fun _ _ => rfl }

theorem Holds.length_nodes (h : Holds heap₀ capacity s items nodes) :
    nodes.length = items.length := by
  simpa using congrArg List.length h.data

/-- The nodes of the chain are live. -/
theorem Holds.heap_ne_none (h : Holds heap₀ capacity s items nodes) {a : ℕ}
    (ha : a ∈ nodes) : s.heap a ≠ none := by
  intro hnone
  have hmem : dataOf s.heap a ∈ items.map some := by
    rw [← h.data]
    exact List.mem_map_of_mem ha
  rw [dataOf, hnone] at hmem
  simp at hmem

/-- The conversion in `stack_full` loses nothing at this depth. -/
theorem Holds.full_iff (h : Holds heap₀ capacity s items nodes) :
    s.stack.count % 2 ^ 32 = s.stack.capacity ↔ items.length = capacity := by
  have hcap := h.capacity_le
  have hlen := h.length_le
  rw [maxDepth] at hcap
  rw [h.count_eq, h.capacity_eq]
  omega

/-- **A full stack refuses, and nothing changes.** -/
theorem Holds.refuse (h : Holds heap₀ capacity s items nodes)
    (hfull : items.length = capacity) (item : ℤ) (addr : ℕ) :
    stackStep s (.push item addr) = .ok (s, -1) :=
  stackStep_push_of_full (h.full_iff.mpr hfull) item addr

/-- **A push** on a stack that is not full puts a fresh node in front. -/
theorem Holds.push (h : Holds heap₀ capacity s items nodes)
    (hroom : items.length ≠ capacity) {item : ℤ} {addr : ℕ}
    (hmalloc : Allocatable s (.push item addr)) :
    ∃ s', stackStep s (.push item addr) = .ok (s', 0) ∧
      Holds heap₀ capacity s' (item :: items) (addr :: nodes) := by
  obtain ⟨hne, hfree⟩ := hmalloc
  have hnot : s.stack.count % 2 ^ 32 ≠ s.stack.capacity := mt h.full_iff.mp hroom
  have hempty : s.stack.count = 0 → s.stack.head = 0 := by
    intro hcount
    have hlen : nodes.length = 0 := by
      rw [h.length_nodes]
      have hcast := h.count_eq
      omega
    exact h.visits.eq_null_iff.mpr (List.length_eq_zero_iff.mp hlen)
  have hnotMem : addr ∉ nodes := fun hmem => h.heap_ne_none hmem hfree
  have hother : ∀ a ∈ nodes, a ≠ addr := fun a ha heq => hnotMem (heq ▸ ha)
  refine ⟨_, stackStep_push_of_not_full hnot hempty item addr, ?_⟩
  refine
    { capacity_eq := h.capacity_eq
      capacity_le := h.capacity_le
      count_eq := by simp [h.count_eq]
      length_le := by
        rw [List.length_cons]
        exact Nat.lt_of_le_of_ne h.length_le hroom
      visits := ⟨rfl, hne, ?_⟩
      data := ?_
      fresh := ?_
      frame := ?_ }
  · have hnext : nextOf (Function.update s.heap addr
        (some { data := item, next := s.stack.head })) addr = s.stack.head := by
      simp [nextOf]
    show Visits 0 (nextOf (Function.update s.heap addr _))
      (nextOf (Function.update s.heap addr _) addr) nodes
    rw [hnext]
    exact h.visits.congr fun a ha => nextOf_update_ne (hother a ha) _
  · show dataOf (Function.update s.heap addr _) addr ::
      nodes.map (dataOf (Function.update s.heap addr _)) = (item :: items).map some
    rw [List.map_cons, ← h.data, dataOf, Function.update_self]
    congr 1
    exact List.map_congr_left fun a ha => dataOf_update_ne (hother a ha) _
  · intro a ha
    rcases List.mem_cons.mp ha with rfl | ha
    · rw [← h.frame a hnotMem, hfree]
    · exact h.fresh a ha
  · intro a ha
    rw [List.mem_cons, not_or] at ha
    show Function.update s.heap addr _ a = heap₀ a
    rw [Function.update_of_ne ha.1, h.frame a ha.2]

/-- **A pop** on a stack that is not empty drops the newest item and frees its
node; the value it returns is the constant of the source. -/
theorem Holds.pop {item : ℤ} {node : ℕ}
    (h : Holds heap₀ capacity s (item :: items) (node :: nodes)) :
    ∃ s', stackStep s .pop = .ok (s', 9999999) ∧
      Holds heap₀ capacity s' items nodes := by
  have hcount : s.stack.count ≠ 0 := by
    rw [h.count_eq, List.length_cons]
    omega
  obtain ⟨hhead, -, hrest⟩ := h.visits
  obtain ⟨top, htop⟩ := Option.ne_none_iff_exists'.mp (h.heap_ne_none List.mem_cons_self)
  have htop' : s.heap s.stack.head = some top := by rw [hhead]; exact htop
  have hnext : nextOf s.heap node = top.next := by simp [nextOf, htop]
  have hother : ∀ a ∈ nodes, a ≠ s.stack.head := by
    intro a ha heq
    rw [hhead] at heq
    exact (List.nodup_cons.mp h.visits.nodup).1 (heq ▸ ha)
  have hdata := h.data
  rw [List.map_cons, List.map_cons, List.cons.injEq] at hdata
  refine ⟨_, stackStep_pop_of_node hcount htop', ?_⟩
  refine
    { capacity_eq := h.capacity_eq
      capacity_le := h.capacity_le
      count_eq := ?_
      length_le := ?_
      visits := ?_
      data := ?_
      fresh := fun a ha => h.fresh a (List.mem_cons_of_mem _ ha)
      frame := ?_ }
  · show s.stack.count - 1 = items.length
    rw [h.count_eq, List.length_cons]
    omega
  · have hlen := h.length_le
    rw [List.length_cons] at hlen
    omega
  · rw [hnext] at hrest
    exact hrest.congr fun a ha => nextOf_update_ne (hother a ha) _
  · rw [← hdata.2]
    exact List.map_congr_left fun a ha => dataOf_update_ne (hother a ha) _
  · intro a ha
    show Function.update s.heap s.stack.head none a = heap₀ a
    by_cases haNode : a = node
    · rw [haNode, hhead, Function.update_self, h.fresh node List.mem_cons_self]
    · rw [Function.update_of_ne (by rw [hhead]; exact haNode)]
      exact h.frame a (by simp [haNode, ha])

/-! ## Runs -/

/-- The items left, newest first, when a stack of at most `capacity` items that
holds `items` is given the calls `ops`. -/
def replay (capacity : ℕ) : List ℤ → List StackOp → List ℤ
  | items, [] => items
  | items, .push item _ :: ops =>
      if items.length = capacity then replay capacity items ops
      else replay capacity (item :: items) ops
  | items, .pop :: ops => replay capacity items.tail ops

/-- The items that such a stack pops, in order. -/
def poppedItems (capacity : ℕ) : List ℤ → List StackOp → List ℤ
  | _, [] => []
  | items, .push item _ :: ops =>
      if items.length = capacity then poppedItems capacity items ops
      else poppedItems capacity (item :: items) ops
  | [], .pop :: ops => poppedItems capacity [] ops
  | item :: items, .pop :: ops => item :: poppedItems capacity items ops

/-- **Last in, first out**, for the values a run returned from a stack holding
`items`: a push returns `-1` when the stack is full and `0` otherwise, and a pop
returns the most recently pushed item that has not been popped. -/
def Lifo (capacity : ℕ) : List ℤ → List (StackOp × ℤ) → Prop
  | _, [] => True
  | items, (.push item _, r) :: tr =>
      if items.length = capacity then r = -1 ∧ Lifo capacity items tr
      else r = 0 ∧ Lifo capacity (item :: items) tr
  | [], (.pop, _) :: _ => False
  | item :: items, (.pop, r) :: tr => r = item ∧ Lifo capacity items tr

/-- **A run keeps the representation**, and its values are last-in first-out
exactly when every popped item is the constant of the source. -/
theorem holds_of_run {tr : List (StackOp × ℤ)} {s s' : State} (hrun : Run Step s tr s') :
    ∀ {items : List ℤ} {nodes : List ℕ}, Holds heap₀ capacity s items nodes →
      (∃ nodes', Holds heap₀ capacity s'
        (replay capacity items (tr.map Prod.fst)) nodes') ∧
      (Lifo capacity items tr ↔
        ∀ x ∈ poppedItems capacity items (tr.map Prod.fst), x = 9999999) := by
  induction hrun with
  | nil s =>
    intro items nodes h
    exact ⟨⟨nodes, h⟩, by simp [Lifo, poppedItems]⟩
  | @cons s t u op r tr hstep _ ih =>
    intro items nodes h
    obtain ⟨hmalloc, hcall⟩ := hstep
    cases op with
    | push item addr =>
      by_cases hfull : items.length = capacity
      · obtain ⟨rfl, rfl⟩ : s = t ∧ -1 = r := by
          simpa [h.refuse hfull item addr] using hcall
        simpa [replay, poppedItems, Lifo, hfull] using ih h
      · obtain ⟨t', ht', hpush⟩ := h.push hfull hmalloc
        obtain ⟨rfl, rfl⟩ : t' = t ∧ 0 = r := by
          simpa [ht'] using hcall
        simpa [replay, poppedItems, Lifo, hfull] using ih hpush
    | pop =>
      cases items with
      | nil =>
        have hcount : s.stack.count = 0 := by simp [h.count_eq]
        exact absurd hcall (by simp [stackStep_pop_of_empty hcount])
      | cons item items =>
        obtain ⟨node, rest, rfl⟩ := List.exists_cons_of_length_eq_add_one h.length_nodes
        obtain ⟨t', ht', hpop⟩ := h.pop
        obtain ⟨rfl, rfl⟩ : t' = t ∧ 9999999 = r := by
          simpa [ht'] using hcall
        obtain ⟨hholds, hiff⟩ := ih hpop
        refine ⟨hholds, ?_⟩
        show (9999999 = item ∧ Lifo capacity items tr) ↔ _
        rw [hiff, List.map_cons, poppedItems, List.forall_mem_cons, eq_comm]

/-- **When the returned values are last-in first-out.**  For every run of calls on
a stack from `create_stack`: a full stack refuses with `-1` and is left as it
was, and every pop returns the newest item, if and only if every item popped is
the constant `9999999`.  Moreover the run can always go on: a push returns for
every address `malloc` may choose, and a pop returns unless the stack is empty. -/
theorem lifo_iff (heap₀ : Heap) (capacity : ℕ) (stack : Stack)
    (hcreate : createStack capacity = .ok stack) (tr : List (StackOp × ℤ)) (s : State)
    (hrun : Run Step { stack := stack, heap := heap₀ } tr s) :
    ((Lifo capacity [] tr ∧ ∀ item addr, stackFull (some s.stack) = .ok 1 →
        stackStep s (.push item addr) = .ok (s, -1)) ↔
      ∀ x ∈ poppedItems capacity [] (tr.map Prod.fst), x = 9999999) ∧
    (∀ item addr, Allocatable s (.push item addr) →
      ∃ s' r, stackStep s (.push item addr) = .ok (s', r)) ∧
    (stackEmpty (some s.stack) = .ok 0 → ∃ s' r, stackStep s .pop = .ok (s', r)) := by
  obtain ⟨⟨nodes, h⟩, hiff⟩ := holds_of_run hrun (holds_createStack hcreate)
  refine ⟨?_, ?_, ?_⟩
  · rw [← hiff]
    refine and_iff_left fun item addr hfull => ?_
    refine stackStep_push_of_full ?_ item addr
    by_contra hne
    rw [stackFull_of_not_full hne] at hfull
    cases hfull
  · intro item addr hmalloc
    by_cases hfull : (replay capacity [] (tr.map Prod.fst)).length = capacity
    · exact ⟨s, -1, h.refuse hfull item addr⟩
    · obtain ⟨s', hs', -⟩ := h.push hfull hmalloc
      exact ⟨s', 0, hs'⟩
  · intro hempty
    rcases hitems : replay capacity [] (tr.map Prod.fst) with _ | ⟨item, items⟩
    · rw [hitems] at h
      have hcount : s.stack.count = 0 := h.count_eq
      rw [stackEmpty, if_pos hcount] at hempty
      cases hempty
    · rw [hitems] at h
      obtain ⟨node, rest, rfl⟩ := List.exists_cons_of_length_eq_add_one h.length_nodes
      obtain ⟨s', hs', -⟩ := h.pop
      exact ⟨s', 9999999, hs'⟩

/-- One push and one pop of an item, as a run. -/
theorem run_push_pop (item : ℤ) :
    Run Step { stack := ⟨0, 2, 0⟩, heap := fun _ => none }
      [(.push item 16, 0), (.pop, 9999999)]
      { stack := ⟨0, 2, 0⟩
        heap := Function.update
          (Function.update (fun _ => none) 16 (some { data := item, next := 0 })) 16 none } :=
  Run.cons ⟨⟨by decide, rfl⟩, rfl⟩ (Run.cons ⟨trivial, rfl⟩ (Run.nil _))

/-- Two pushes, a third one that is refused, and a pop and a push behind it. -/
theorem run_refused : Run Step { stack := ⟨0, 2, 0⟩, heap := fun _ => none }
    [(.push 7 16, 0), (.push 9999999 24, 0), (.push 5 32, -1), (.pop, 9999999),
      (.push 9999999 40, 0)]
    { stack := ⟨2, 2, 40⟩
      heap := Function.update (Function.update (Function.update (Function.update (fun _ => none)
        16 (some ⟨7, 0⟩)) 24 (some ⟨9999999, 16⟩)) 24 none) 40 (some ⟨9999999, 16⟩) } :=
  Run.cons ⟨⟨by decide, rfl⟩, rfl⟩ (Run.cons ⟨⟨by decide, rfl⟩, rfl⟩
    (Run.cons ⟨⟨by decide, rfl⟩, rfl⟩ (Run.cons ⟨trivial, rfl⟩
      (Run.cons ⟨⟨by decide, rfl⟩, rfl⟩ (Run.nil _)))))

/-- A stack of two that refuses an item and takes another one after a pop: it is last-in
first-out while the items popped are the constant itself, and no longer when the `7` is. -/
theorem lifo_iff_refused :
    Lifo 2 [] [(.push 7 16, 0), (.push 9999999 24, 0), (.push 5 32, -1), (.pop, 9999999),
        (.push 9999999 40, 0), (.pop, 9999999)] ∧
      ¬ Lifo 2 [] [(.push 7 16, 0), (.push 9999999 24, 0), (.push 5 32, -1), (.pop, 9999999),
        (.push 9999999 40, 0), (.pop, 9999999), (.pop, 9999999)] := by
  have hone := run_refused.append (Run.cons (i := StackOp.pop) ⟨trivial, rfl⟩ (Run.nil _))
  have htwo := hone.append (Run.cons (i := StackOp.pop) ⟨trivial, rfl⟩ (Run.nil _))
  refine ⟨((lifo_iff (fun _ => none) 2 ⟨0, 2, 0⟩ rfl _ _ hone).1.mpr (by decide)).1,
    fun hlifo => ?_⟩
  have hall := (lifo_iff (fun _ => none) 2 ⟨0, 2, 0⟩ rfl _ _ htwo).1.mp
    ⟨hlifo, fun item addr hfull => by cases hfull⟩
  exact absurd hall (by decide)

/-- **The code is not last-in first-out**: a stack that holds only `7` pops
`9999999`. -/
theorem not_lifo :
    ¬ ∀ (heap₀ : Heap) (capacity : ℕ) (stack : Stack), createStack capacity = .ok stack →
      ∀ (tr : List (StackOp × ℤ)) (s : State),
        Run Step { stack := stack, heap := heap₀ } tr s → Lifo capacity [] tr := by
  intro h
  have hlifo := h (fun _ => none) 2 ⟨0, 2, 0⟩ rfl _ _ (run_push_pop 7)
  exact absurd hlifo (by simp [Lifo])

end NodeStack
end SystemsProjects

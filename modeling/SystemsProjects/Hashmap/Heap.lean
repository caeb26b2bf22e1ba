import SystemsProjects.Lib.CInt
import SystemsProjects.Lib.CString
import SystemsProjects.Lib.Loop

/-!
# The memory of the hashmap

`Assignment4_Library/part2/containers.h` has two records, the node of a chain and
the key/value pair it points to; the strings live in buffers of their own.  The
heap keeps the three kinds of blocks apart by type, each under the address that
`malloc` gave it.  A block that is not allocated, or no longer, is `none`, and to
read it stops the program.

An address handed out by `malloc` is one at which nothing is allocated, of any of
the three types (`Heap.Fresh`).  It may have been used and freed before.
-/

namespace SystemsProjects
namespace MyHashmap

open Lib

/-- Why the program stops. -/
inductive Stop where
  /-- `exit(code)` -/
  | exit (code : ℤ)
  /-- a pointer that is NULL or points to no block of its type is followed -/
  | segfault
  /-- a buffer is read as a string that nothing was copied to -/
  | unterminated
  /-- `free` of something that is not allocated -/
  | badFree
  | divisionByZero
  /-- an index outside `arrayOfLists` -/
  | outOfBounds
  /-- a loop comes back to a node it has seen -/
  | diverges
  deriving DecidableEq, Repr

/-- `node_t`. -/
structure Node where
  next : ℕ
  kv : ℕ
  deriving DecidableEq, Repr

/-- `pair_t`: the addresses of two strings. -/
structure Pair where
  key : ℕ
  value : ℕ
  deriving DecidableEq, Repr

/-- The block behind a `char*`: the size asked of `malloc`, and the string that
`strcpy` put there. -/
structure Buffer where
  size : ℕ
  contents : Option CString
  deriving DecidableEq

/-- The allocated blocks. -/
structure Heap where
  nodes : ℕ → Option Node
  pairs : ℕ → Option Pair
  buffers : ℕ → Option Buffer

namespace Heap

variable (h : Heap)

/-- What `malloc` may return when it succeeds. -/
structure Fresh (a : ℕ) : Prop where
  ne_null : a ≠ 0
  lt : a < 2 ^ 64
  nodes : h.nodes a = none
  pairs : h.pairs a = none
  buffers : h.buffers a = none

/-! ## Reading -/

/-- `*p` for a `node_t* p`. -/
def node (p : ℕ) : Except Stop Node :=
  match h.nodes p with
  | some n => pure n
  | none => .error .segfault

/-- `*p` for a `pair_t* p`. -/
def pair (p : ℕ) : Except Stop Pair :=
  match h.pairs p with
  | some kv => pure kv
  | none => .error .segfault

/-- The string at a `char*`. -/
def string (p : ℕ) : Except Stop CString :=
  match h.buffers p with
  | none => .error .segfault
  | some b =>
    match b.contents with
    | none => .error .unterminated
    | some s => pure s

/-- `p->kv->key` as a string. -/
def nodeKey (p : ℕ) : Except Stop CString := do
  let n ← h.node p
  let kv ← h.pair n.kv
  h.string kv.key

/-- `p->kv->value` as a string. -/
def nodeValue (p : ℕ) : Except Stop CString := do
  let n ← h.node p
  let kv ← h.pair n.kv
  h.string kv.value

/-! ## Writing -/

/-- Write a node. -/
def setNode (p : ℕ) (n : Option Node) : Heap := { h with nodes := Function.update h.nodes p n }

/-- Write a pair. -/
def setPair (p : ℕ) (kv : Option Pair) : Heap :=
  { h with pairs := Function.update h.pairs p kv }

/-- Write a buffer. -/
def setBuffer (p : ℕ) (b : Option Buffer) : Heap :=
  { h with buffers := Function.update h.buffers p b }

/-- `p->next = q`. -/
def setNext (p q : ℕ) : Except Stop Heap := do
  let n ← h.node p
  pure (h.setNode p (some { n with next := q }))

/-- `p->value = q`. -/
def setValue (p q : ℕ) : Except Stop Heap := do
  let kv ← h.pair p
  pure (h.setPair p (some { kv with value := q }))

/-- `malloc(size)` for a string. -/
def mallocBuffer (p size : ℕ) : Heap := h.setBuffer p (some ⟨size, none⟩)

/-- `strcpy(p, s)`, into a buffer taken to be large enough. -/
def strcpy (p : ℕ) (s : CString) : Except Stop Heap :=
  match h.buffers p with
  | none => .error .segfault
  | some b => pure (h.setBuffer p (some { b with contents := some s }))

/-- `free` of a node. -/
def freeNode (p : ℕ) : Except Stop Heap :=
  if p = 0 then pure h
  else if h.nodes p = none then .error .badFree
  else pure (h.setNode p none)

/-- `free` of a pair. -/
def freePair (p : ℕ) : Except Stop Heap :=
  if p = 0 then pure h
  else if h.pairs p = none then .error .badFree
  else pure (h.setPair p none)

/-- `free` of a string. -/
def freeBuffer (p : ℕ) : Except Stop Heap :=
  if p = 0 then pure h
  else if h.buffers p = none then .error .badFree
  else pure (h.setBuffer p none)

/-- The link of a node, as a function on addresses. -/
def nextOf (p : ℕ) : ℕ :=
  match h.nodes p with
  | some n => n.next
  | none => 0

@[simp] theorem setNode_pairs (p : ℕ) (n : Option Node) : (h.setNode p n).pairs = h.pairs := rfl
@[simp] theorem setNode_buffers (p : ℕ) (n : Option Node) :
    (h.setNode p n).buffers = h.buffers := rfl
@[simp] theorem setPair_nodes (p : ℕ) (kv : Option Pair) : (h.setPair p kv).nodes = h.nodes := rfl
@[simp] theorem setPair_buffers (p : ℕ) (kv : Option Pair) :
    (h.setPair p kv).buffers = h.buffers := rfl
@[simp] theorem setBuffer_nodes (p : ℕ) (b : Option Buffer) :
    (h.setBuffer p b).nodes = h.nodes := rfl
@[simp] theorem setBuffer_pairs (p : ℕ) (b : Option Buffer) :
    (h.setBuffer p b).pairs = h.pairs := rfl
@[simp] theorem mallocBuffer_nodes (p size : ℕ) : (h.mallocBuffer p size).nodes = h.nodes := rfl
@[simp] theorem mallocBuffer_pairs (p size : ℕ) : (h.mallocBuffer p size).pairs = h.pairs := rfl

theorem setNode_nodes_of_ne {p a : ℕ} (ha : a ≠ p) (n : Option Node) :
    (h.setNode p n).nodes a = h.nodes a := by
  simp [setNode, ha]

theorem setPair_pairs_of_ne {p a : ℕ} (ha : a ≠ p) (kv : Option Pair) :
    (h.setPair p kv).pairs a = h.pairs a := by
  simp [setPair, ha]

theorem setBuffer_buffers_of_ne {p a : ℕ} (ha : a ≠ p) (b : Option Buffer) :
    (h.setBuffer p b).buffers a = h.buffers a := by
  simp [setBuffer, ha]

@[simp] theorem setNode_nodes_self (p : ℕ) (n : Option Node) : (h.setNode p n).nodes p = n := by
  simp [setNode]

@[simp] theorem setPair_pairs_self (p : ℕ) (kv : Option Pair) :
    (h.setPair p kv).pairs p = kv := by
  simp [setPair]

@[simp] theorem setBuffer_buffers_self (p : ℕ) (b : Option Buffer) :
    (h.setBuffer p b).buffers p = b := by
  simp [setBuffer]

/-- Writing a node changes its own link only. -/
theorem nextOf_setNode_of_ne {p a : ℕ} (ha : a ≠ p) (n : Option Node) :
    (h.setNode p n).nextOf a = h.nextOf a := by
  rw [nextOf, nextOf, h.setNode_nodes_of_ne ha]

theorem nextOf_setNode_self (p : ℕ) (n : Node) : (h.setNode p (some n)).nextOf p = n.next := by
  rw [nextOf, setNode_nodes_self]

theorem nextOf_congr {h' : Heap} (hnodes : h'.nodes = h.nodes) : h'.nextOf = h.nextOf := by
  funext a
  rw [nextOf, nextOf, hnodes]

/-- Where a key is read there is a node. -/
theorem node_of_nodeKey {p : ℕ} {key : CString} (hkey : h.nodeKey p = .ok key) :
    ∃ kv, h.node p = .ok ⟨h.nextOf p, kv⟩ := by
  rw [nodeKey, bind_eq_ok] at hkey
  obtain ⟨x, hx, -⟩ := hkey
  refine ⟨x.kv, ?_⟩
  rw [node] at hx ⊢
  rw [nextOf]
  generalize h.nodes p = o at hx ⊢
  cases o with
  | none => cases hx
  | some y =>
    obtain rfl := Except.ok.inj hx
    rfl

/-- A copy into an allocated buffer succeeds. -/
theorem strcpy_eq {p : ℕ} {b : Buffer} (hb : h.buffers p = some b) (s : CString) :
    h.strcpy p s = .ok (h.setBuffer p (some { b with contents := some s })) := by
  rw [strcpy, hb]
  rfl

theorem freeBuffer_eq {p : ℕ} (hp : p ≠ 0) (hb : h.buffers p ≠ none) :
    h.freeBuffer p = .ok (h.setBuffer p none) := by
  rw [freeBuffer, if_neg hp, if_neg hb]
  rfl

theorem freePair_eq {p : ℕ} (hp : p ≠ 0) (hkv : h.pairs p ≠ none) :
    h.freePair p = .ok (h.setPair p none) := by
  rw [freePair, if_neg hp, if_neg hkv]
  rfl

theorem freeNode_eq {p : ℕ} (hp : p ≠ 0) (hn : h.nodes p ≠ none) :
    h.freeNode p = .ok (h.setNode p none) := by
  rw [freeNode, if_neg hp, if_neg hn]
  rfl

end Heap

/-! ## Allocated blocks of every type -/

/-- A block, by its type and address. -/
inductive Block where
  | node (a : ℕ)
  | pair (a : ℕ)
  | buffer (a : ℕ)
  deriving DecidableEq

namespace Heap

variable (h : Heap)

/-- The block is allocated and not freed. -/
def Live : Block → Prop
  | .node a => h.nodes a ≠ none
  | .pair a => h.pairs a ≠ none
  | .buffer a => h.buffers a ≠ none

theorem Fresh.not_live {h : Heap} {a : ℕ} (ha : h.Fresh a) :
    ¬ h.Live (.node a) ∧ ¬ h.Live (.pair a) ∧ ¬ h.Live (.buffer a) :=
  ⟨fun hl => hl ha.nodes, fun hl => hl ha.pairs, fun hl => hl ha.buffers⟩

theorem live_update_some {α : Type} (f : ℕ → Option α) (p a : ℕ) (v : α) :
    Function.update f p (some v) a ≠ none ↔ f a ≠ none ∨ a = p := by
  by_cases ha : a = p
  · simp [ha]
  · simp [ha]

theorem live_update_none {α : Type} (f : ℕ → Option α) (p a : ℕ) :
    Function.update f p none a ≠ none ↔ f a ≠ none ∧ a ≠ p := by
  by_cases ha : a = p
  · simp [ha]
  · simp [ha]

theorem live_setNode_some (p : ℕ) (n : Node) (b : Block) :
    (h.setNode p (some n)).Live b ↔ h.Live b ∨ b = .node p := by
  cases b with
  | node a => simpa [Live, setNode] using live_update_some h.nodes p a n
  | pair a => simp [Live]
  | buffer a => simp [Live]

/-- Writing to an allocated node allocates nothing. -/
theorem live_setNode_of_live {p : ℕ} (hp : h.nodes p ≠ none) (n : Node) (b : Block) :
    (h.setNode p (some n)).Live b ↔ h.Live b := by
  rw [live_setNode_some]
  refine or_iff_left_of_imp fun hb => ?_
  rw [hb]
  exact hp

theorem live_setPair_some (p : ℕ) (kv : Pair) (b : Block) :
    (h.setPair p (some kv)).Live b ↔ h.Live b ∨ b = .pair p := by
  cases b with
  | node a => simp [Live]
  | pair a => simpa [Live, setPair] using live_update_some h.pairs p a kv
  | buffer a => simp [Live]

theorem live_setBuffer_some (p : ℕ) (c : Buffer) (b : Block) :
    (h.setBuffer p (some c)).Live b ↔ h.Live b ∨ b = .buffer p := by
  cases b with
  | node a => simp [Live]
  | pair a => simp [Live]
  | buffer a => simpa [Live, setBuffer] using live_update_some h.buffers p a c

theorem live_setNode_none (p : ℕ) (b : Block) :
    (h.setNode p none).Live b ↔ h.Live b ∧ b ≠ .node p := by
  cases b with
  | node a => simpa [Live, setNode] using live_update_none h.nodes p a
  | pair a => simp [Live]
  | buffer a => simp [Live]

theorem live_setPair_none (p : ℕ) (b : Block) :
    (h.setPair p none).Live b ↔ h.Live b ∧ b ≠ .pair p := by
  cases b with
  | node a => simp [Live]
  | pair a => simpa [Live, setPair] using live_update_none h.pairs p a
  | buffer a => simp [Live]

theorem live_setBuffer_none (p : ℕ) (b : Block) :
    (h.setBuffer p none).Live b ↔ h.Live b ∧ b ≠ .buffer p := by
  cases b with
  | node a => simp [Live]
  | pair a => simp [Live]
  | buffer a => simpa [Live, setBuffer] using live_update_none h.buffers p a

end Heap

end MyHashmap
end SystemsProjects

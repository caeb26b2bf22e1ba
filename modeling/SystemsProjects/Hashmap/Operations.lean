import SystemsProjects.Hashmap.Heap

/-!
# The operations: `my_hashmap.c`

Each operation of `Assignment4_Library/part2/my_hashmap.c`, statement by
statement.  The addresses that `malloc` returns come from outside, as arguments
of the operation that calls it.

The loops of the source have no bound.  A chain that is followed through more
than `2 ^ 64` nodes has met one of them twice, and as no loop writes to memory it
never ends; such a loop stops with `Stop.diverges`.
-/

namespace SystemsProjects
namespace MyHashmap

open Lib

/-- `hashmap_t`. -/
structure Hashmap where
  buckets : ℕ
  arrayOfLists : List ℕ
  hashFunction : CString → ℤ → Except Stop ℤ

/-- The memory, and the map that the operations are called on (`none` for NULL). -/
structure State where
  heap : Heap
  hashmap : Option Hashmap

/-- The number of addresses. -/
def addresses : ℕ := 2 ^ 64

/-- `strlen(myKey) % numberOfBuckets`: the count is converted to `size_t`, and the
remainder back to `int`. -/
def stringHash (myKey : CString) (numberOfBuckets : ℤ) : Except Stop ℤ :=
  if toUInt64 numberOfBuckets = 0 then .error .divisionByZero
  else pure (toInt32 (strlen myKey % toUInt64 numberOfBuckets))

/-- `_hashmap->hashFunction(key, _hashmap->buckets)`. -/
def Hashmap.bucketOf (m : Hashmap) (key : CString) : Except Stop ℤ :=
  m.hashFunction key (toInt32 m.buckets)

/-- `_hashmap->arrayOfLists[bucket]`. -/
def Hashmap.list (m : Hashmap) (bucket : ℤ) : Except Stop ℕ :=
  if 0 ≤ bucket ∧ bucket < m.arrayOfLists.length then
    pure (m.arrayOfLists.getD bucket.toNat 0)
  else .error .outOfBounds

/-- `_hashmap->arrayOfLists[bucket] = p`. -/
def Hashmap.setList (m : Hashmap) (bucket : ℤ) (p : ℕ) : Except Stop Hashmap :=
  if 0 ≤ bucket ∧ bucket < m.arrayOfLists.length then
    pure { m with arrayOfLists := m.arrayOfLists.set bucket.toNat p }
  else .error .outOfBounds

/-! ## Searching -/

/-- The body of the loop of `hashmap_hasKey`. -/
def hasKeyBody (h : Heap) (key : CString) (list : ℕ) : Except Stop (ℕ ⊕ ℤ) :=
  if list = 0 then pure (.inr 0)
  else do
    if strcmp (← h.nodeKey list) key = 0 then pure (.inr 1)
    else pure (.inl (← h.node list).next)

/-- Whether the key is in its chain: 1 or 0. -/
def hashmap_hasKey (s : State) (key : CString) : Except Stop ℤ :=
  match s.hashmap with
  | none => .error (.exit 1)
  | some m => do
    let bucket ← m.bucketOf key
    let list ← m.list bucket
    loop .diverges (hasKeyBody s.heap key) addresses list

/-- The body of the loop `while(strcmp(list->kv->key, key) != 0) list = list->next`,
of `hashmap_getValue` and of `hashmap_update`. -/
def findBody (h : Heap) (key : CString) (list : ℕ) : Except Stop (ℕ ⊕ ℕ) := do
  if strcmp (← h.nodeKey list) key ≠ 0 then pure (.inl (← h.node list).next)
  else pure (.inr list)

/-- The value's address, NULL if the key is absent. -/
def hashmap_getValue (s : State) (key : CString) : Except Stop ℕ :=
  match s.hashmap with
  | none => .error (.exit 1)
  | some m => do
    if (← hashmap_hasKey s key) = 0 then pure 0
    else
      let bucket ← m.bucketOf key
      let list ← m.list bucket
      let list ← loop .diverges (findBody s.heap key) addresses list
      pure (← s.heap.pair (← s.heap.node list).kv).value

/-! ## Inserting -/

/-- The addresses of the four blocks that `hashmap_insert` allocates. -/
structure NewBlocks where
  pair : ℕ
  key : ℕ
  value : ℕ
  node : ℕ
  deriving DecidableEq, Repr

/-- The body of the loop `while(list->next != NULL) list = list->next`. -/
def lastBody (h : Heap) (list : ℕ) : Except Stop (ℕ ⊕ ℕ) := do
  let next := (← h.node list).next
  if next ≠ 0 then pure (.inl next) else pure (.inr list)

/-- The new pair with its strings, and the new node. -/
def makeNode (h : Heap) (new : NewBlocks) (key value : CString) : Except Stop Heap := do
  let h := h.setPair new.pair (some ⟨new.key, new.value⟩)
  let h := h.mallocBuffer new.key (strlen key)
  let h := h.mallocBuffer new.value (strlen value)
  let h ← h.strcpy new.key key
  let h ← h.strcpy new.value value
  pure (h.setNode new.node (some ⟨0, new.pair⟩))

/-- A key that is there already is left as it is. -/
def hashmap_insert (s : State) (key value : CString) (new : NewBlocks) :
    Except Stop State :=
  match s.hashmap with
  | none => .error (.exit 1)
  | some m => do
    if (← hashmap_hasKey s key) = 1 then pure s
    else
      let bucket ← m.bucketOf key
      let list ← m.list bucket
      let h ← makeNode s.heap new key value
      if list = 0 then
        let m ← m.setList bucket new.node
        pure ⟨h, some m⟩
      else
        let list ← loop .diverges (lastBody h) addresses list
        let h ← h.setNext list new.node
        pure ⟨h, some m⟩

/-! ## Removing -/

/-- The four calls of `free` for a node that is out of its chain. -/
def freeEntry (h : Heap) (p : ℕ) : Except Stop Heap := do
  let h ← h.freeBuffer (← h.pair (← h.node p).kv).key
  let h ← h.freeBuffer (← h.pair (← h.node p).kv).value
  let h ← h.freePair (← h.node p).kv
  h.freeNode p

/-- The body of the loop of `hashmap_removeKey`, on `remove` and `prev`. -/
def removeBody (h : Heap) (key : CString) : ℕ × ℕ → Except Stop (ℕ × ℕ ⊕ ℕ × ℕ)
  | (remove, prev) => do
    if strcmp (← h.nodeKey remove) key ≠ 0 then
      pure (.inl ((← h.node remove).next, (← h.node prev).next))
    else pure (.inr (remove, prev))

/-- A key that is not there changes nothing. -/
def hashmap_removeKey (s : State) (key : CString) : Except Stop State :=
  match s.hashmap with
  | none => .error (.exit 1)
  | some m => do
    if (← hashmap_hasKey s key) = 0 then pure s
    else
      let bucket ← m.bucketOf key
      let list ← m.list bucket
      if strcmp (← s.heap.nodeKey list) key = 0 then
        let first ← m.list bucket
        let m ← m.setList bucket (← s.heap.node first).next
        let h ← freeEntry s.heap list
        pure ⟨h, some m⟩
      else
        let remove := (← s.heap.node list).next
        let (remove, prev) ← loop .diverges (removeBody s.heap key) addresses (remove, list)
        let h ← s.heap.setNext prev (← s.heap.node remove).next
        let h ← freeEntry h remove
        pure ⟨h, some m⟩

/-! ## Updating -/

/-- `sizeof(newValue)`: the size of a pointer. -/
def pointerSize : ℕ := 8

/-- `newval` is the address of the block that holds the new value. -/
def hashmap_update (s : State) (key newValue : CString) (newval : ℕ) : Except Stop State :=
  match s.hashmap with
  | none => .error (.exit 1)
  | some m => do
    if (← hashmap_hasKey s key) = 0 then pure s
    else
      let bucket ← m.bucketOf key
      let list ← m.list bucket
      let list ← loop .diverges (findBody s.heap key) addresses list
      let h := s.heap.mallocBuffer newval pointerSize
      let h ← h.strcpy newval newValue
      let kv := (← h.node list).kv
      let old := (← h.pair kv).value
      let h ← h.setValue kv newval
      let h ← h.freeBuffer old
      pure ⟨h, some m⟩

/-! ## Printing -/

/-- One call of `printf`. -/
inductive Line where
  /-- `"Bucket %d:\n"` -/
  | bucket (i : ℕ)
  /-- `"\n"` -/
  | blank
  /-- `"Key: %s\n"` -/
  | key (k : CString)
  /-- `"Value: %s\n"` -/
  | value (v : CString)
  deriving DecidableEq

/-- The body of the inner loop of `hashmap_printKeys`, on `list` and the lines
printed so far. -/
def printBody (h : Heap) : ℕ × List Line → Except Stop (ℕ × List Line ⊕ List Line)
  | (list, out) =>
    if list = 0 then pure (.inr out)
    else do
      let k ← h.nodeKey list
      let v ← h.nodeValue list
      pure (.inl ((← h.node list).next, out ++ [.blank, .key k, .value v]))

/-- The body of the outer loop. -/
def printBucket (h : Heap) (m : Hashmap) (i : ℕ) : Except Stop (List Line) := do
  let list ← m.list i
  let out ← loop .diverges (printBody h) addresses (list, [.bucket i])
  pure (out ++ [.blank])

/-- The lines that are printed, bucket by bucket. -/
def hashmap_printKeys (s : State) : Except Stop (List Line) :=
  match s.hashmap with
  | none => .error (.exit 1)
  | some m => do
    let out ← (List.range (toInt32 m.buckets).toNat).mapM (printBucket s.heap m)
    pure out.flatten

end MyHashmap
end SystemsProjects

import SystemsProjects.Hashmap.Ownership
import SystemsProjects.Lib.Avoids

/-!
# The index of a bucket

The count of the buckets is an `unsigned int` in the record, an `int` where
`stringHash` receives it, and a `size_t` in the remainder; the remainder comes back as
an `int`.  A count of more than INT_MAX is negative on the way, and as a `size_t` it is
larger than any length, so the remainder is the length itself: still an index of the
array.  Only a map without buckets has no index for any key.

`indexes_inside_iff` says this of `stringHash` as the operations call it, and of the five
operations: they stop with neither a division by zero nor an index outside of the array,
whatever the memory behind the array contains.
-/

namespace SystemsProjects
namespace MyHashmap

open Lib

/-- The two ways in which an index goes wrong. -/
inductive IndexFault : Stop → Prop
  | divisionByZero : IndexFault .divisionByZero
  | outOfBounds : IndexFault .outOfBounds

/-- **Bucket arithmetic** for `n` buckets: every key of less than 2^31 bytes has an index
in the array, and no operation on such a key divides by zero or leaves the array.  The
heap and the contents of the array are any. -/
def IndexesInside (n : ℕ) : Prop :=
  ∀ (h : Heap) (stale : List ℕ), stale.length = n →
    (∀ m, (hashmap_create h n stale).hashmap = some m → ∀ key, strlen key < 2 ^ 31 →
      ∃ i : ℤ, m.bucketOf key = .ok i ∧ 0 ≤ i ∧ i < n) ∧
    ∀ c : Call, strlen c.key < 2 ^ 31 → ∀ e, IndexFault e →
      perform (hashmap_create h n stale) c ≠ .error e

variable {n : ℕ} {h : Heap} {heads : List ℕ} {key : CString} {e : Stop}

/-! ## The remainder -/

/-- Above INT_MAX the count is negative as an `int`, and the remainder is the length. -/
theorem bucketOf_large (hmin : 2 ^ 31 ≤ n) (hmax : n < 2 ^ 32) (hkey : strlen key < 2 ^ 31) :
    (table n heads).bucketOf key = .ok (strlen key : ℤ) := by
  have hint : toInt32 (n : ℤ) = n - 2 ^ 32 := by
    rw [toInt32, Int.bmod_def]
    omega
  have hsize : toUInt64 ((n : ℤ) - 2 ^ 32) = n - 2 ^ 32 + 2 ^ 64 := by
    rw [toUInt64]
    omega
  rw [Hashmap.bucketOf, table]
  dsimp only
  rw [stringHash, hint, hsize, if_neg (by omega), Int.emod_eq_of_lt (by omega) (by omega),
    toInt32_of_range (by omega) (by omega)]
  rfl

/-- **An index in the array**, for every count but zero. -/
theorem bucketOf_inside (heads : List ℕ) (hn : n ≠ 0) (hmax : n < 2 ^ 32)
    (hkey : strlen key < 2 ^ 31) :
    ∃ i : ℤ, (table n heads).bucketOf key = .ok i ∧ 0 ≤ i ∧ i < n := by
  rcases lt_or_ge n (2 ^ 31) with hsmall | hlarge
  · refine ⟨_, bucketOf_table (Nat.pos_of_ne_zero hn) (by omega) heads key,
      Int.natCast_nonneg _, ?_⟩
    exact_mod_cast Nat.mod_lt (strlen key) (Nat.pos_of_ne_zero hn)
  · exact ⟨_, bucketOf_large hlarge hmax hkey, Int.natCast_nonneg _, by omega⟩

/-! ## The heap has no index faults -/

section Heap

variable (hf : IndexFault e)

include hf

theorem not_indexFault {e' : Stop} (he : ¬ IndexFault e') : e' ≠ e := fun h => he (h ▸ hf)

theorem node_avoids (h : Heap) (p : ℕ) : Avoids e (h.node p) fun _ => True := by
  rw [Heap.node]
  split
  · exact Avoids.ok trivial
  · exact Avoids.error (not_indexFault hf fun hc => by cases hc)

theorem pair_avoids (h : Heap) (p : ℕ) : Avoids e (h.pair p) fun _ => True := by
  rw [Heap.pair]
  split
  · exact Avoids.ok trivial
  · exact Avoids.error (not_indexFault hf fun hc => by cases hc)

theorem string_avoids (h : Heap) (p : ℕ) : Avoids e (h.string p) fun _ => True := by
  rw [Heap.string]
  split
  · exact Avoids.error (not_indexFault hf fun hc => by cases hc)
  · split
    · exact Avoids.error (not_indexFault hf fun hc => by cases hc)
    · exact Avoids.ok trivial

theorem nodeKey_avoids (h : Heap) (p : ℕ) : Avoids e (h.nodeKey p) fun _ => True := by
  rw [Heap.nodeKey]
  refine (node_avoids hf h p).bind fun x _ => ?_
  exact (pair_avoids hf h _).bind fun kv _ => string_avoids hf h _

theorem strcpy_avoids (h : Heap) (p : ℕ) (s : CString) :
    Avoids e (h.strcpy p s) fun _ => True := by
  rw [Heap.strcpy]
  split
  · exact Avoids.error (not_indexFault hf fun hc => by cases hc)
  · exact Avoids.ok trivial

theorem setNext_avoids (h : Heap) (p q : ℕ) : Avoids e (h.setNext p q) fun _ => True :=
  (node_avoids hf h p).bind fun _ _ => Avoids.ok trivial

theorem setValue_avoids (h : Heap) (p q : ℕ) : Avoids e (h.setValue p q) fun _ => True :=
  (pair_avoids hf h p).bind fun _ _ => Avoids.ok trivial

theorem freeBuffer_avoids (h : Heap) (p : ℕ) : Avoids e (h.freeBuffer p) fun _ => True := by
  rw [Heap.freeBuffer]
  split
  · exact Avoids.ok trivial
  · split
    · exact Avoids.error (not_indexFault hf fun hc => by cases hc)
    · exact Avoids.ok trivial

theorem freePair_avoids (h : Heap) (p : ℕ) : Avoids e (h.freePair p) fun _ => True := by
  rw [Heap.freePair]
  split
  · exact Avoids.ok trivial
  · split
    · exact Avoids.error (not_indexFault hf fun hc => by cases hc)
    · exact Avoids.ok trivial

theorem freeNode_avoids (h : Heap) (p : ℕ) : Avoids e (h.freeNode p) fun _ => True := by
  rw [Heap.freeNode]
  split
  · exact Avoids.ok trivial
  · split
    · exact Avoids.error (not_indexFault hf fun hc => by cases hc)
    · exact Avoids.ok trivial

theorem freeEntry_avoids (h : Heap) (p : ℕ) : Avoids e (freeEntry h p) fun _ => True := by
  rw [freeEntry]
  refine (node_avoids hf h p).bind fun x _ => ?_
  refine (pair_avoids hf h _).bind fun kv _ => ?_
  refine (freeBuffer_avoids hf h _).bind fun h₁ _ => ?_
  refine (node_avoids hf h₁ p).bind fun x _ => ?_
  refine (pair_avoids hf h₁ _).bind fun kv _ => ?_
  refine (freeBuffer_avoids hf h₁ _).bind fun h₂ _ => ?_
  refine (node_avoids hf h₂ p).bind fun x _ => ?_
  refine (freePair_avoids hf h₂ _).bind fun h₃ _ => ?_
  exact freeNode_avoids hf h₃ p

theorem makeNode_avoids (h : Heap) (new : NewBlocks) (k v : CString) :
    Avoids e (makeNode h new k v) fun _ => True := by
  rw [makeNode]
  refine (strcpy_avoids hf _ _ _).bind fun h₁ _ => ?_
  exact (strcpy_avoids hf _ _ _).bind fun h₂ _ => Avoids.ok trivial

/-! ## The loops over a chain -/

theorem diverges_ne : Stop.diverges ≠ e := not_indexFault hf fun hc => by cases hc

theorem hasKeyLoop_avoids (h : Heap) (k : CString) (fuel list : ℕ) :
    Avoids e (loop .diverges (hasKeyBody h k) fuel list) fun _ => True := by
  refine Avoids.loop (P := fun _ => True) (diverges_ne hf) (fun p _ => ?_) trivial
  rw [hasKeyBody]
  split
  · exact Avoids.ok trivial
  · refine (nodeKey_avoids hf h p).bind fun s _ => ?_
    split
    · exact Avoids.ok trivial
    · exact (node_avoids hf h p).bind fun _ _ => Avoids.ok trivial

theorem findLoop_avoids (h : Heap) (k : CString) (fuel list : ℕ) :
    Avoids e (loop .diverges (findBody h k) fuel list) fun _ => True := by
  refine Avoids.loop (P := fun _ => True) (diverges_ne hf) (fun p _ => ?_) trivial
  rw [findBody]
  refine (nodeKey_avoids hf h p).bind fun s _ => ?_
  split
  · exact (node_avoids hf h p).bind fun _ _ => Avoids.ok trivial
  · exact Avoids.ok trivial

theorem lastLoop_avoids (h : Heap) (fuel list : ℕ) :
    Avoids e (loop .diverges (lastBody h) fuel list) fun _ => True := by
  refine Avoids.loop (P := fun _ => True) (diverges_ne hf) (fun p _ => ?_) trivial
  rw [lastBody]
  refine (node_avoids hf h p).bind fun x _ => ?_
  dsimp only
  split
  · exact Avoids.ok trivial
  · exact Avoids.ok trivial

theorem removeLoop_avoids (h : Heap) (k : CString) (fuel : ℕ) (p : ℕ × ℕ) :
    Avoids e (loop .diverges (removeBody h k) fuel p) fun _ => True := by
  refine Avoids.loop (P := fun _ => True) (diverges_ne hf) (fun q _ => ?_) trivial
  obtain ⟨remove, prev⟩ := q
  rw [removeBody]
  refine (nodeKey_avoids hf h remove).bind fun s _ => ?_
  split
  · refine (node_avoids hf h remove).bind fun _ _ => ?_
    exact (node_avoids hf h prev).bind fun _ _ => Avoids.ok trivial
  · exact Avoids.ok trivial

end Heap

/-! ## The operations -/

section Operations

variable (hf : IndexFault e) (hn : n ≠ 0) (hmax : n < 2 ^ 32) (hlength : heads.length = n)
  (hkey : strlen key < 2 ^ 31) (h : Heap)

include hn hmax hlength hkey in
theorem bucketOf_avoids :
    Avoids e ((table n heads).bucketOf key) fun i => 0 ≤ i ∧ i < heads.length := by
  obtain ⟨i, hi, hinside⟩ := bucketOf_inside heads hn hmax hkey
  rw [hi]
  exact Avoids.ok (by rw [hlength]; exact hinside)

theorem list_avoids {i : ℤ} (hi : 0 ≤ i ∧ i < heads.length) :
    Avoids e ((table n heads).list i) fun _ => True := by
  rw [Hashmap.list, if_pos (show 0 ≤ i ∧ i < (table n heads).arrayOfLists.length from hi)]
  exact Avoids.ok trivial

theorem setList_avoids {i : ℤ} (hi : 0 ≤ i ∧ i < heads.length) (p : ℕ) :
    Avoids e ((table n heads).setList i p) fun _ => True := by
  rw [Hashmap.setList, if_pos (show 0 ≤ i ∧ i < (table n heads).arrayOfLists.length from hi)]
  exact Avoids.ok trivial

include hf hn hmax hlength hkey

theorem hashmap_hasKey_avoids :
    Avoids e (hashmap_hasKey ⟨h, some (table n heads)⟩ key) fun _ => True := by
  rw [hashmap_hasKey]
  refine (bucketOf_avoids hn hmax hlength hkey).bind fun i hi => ?_
  refine (list_avoids hi).bind fun list _ => ?_
  exact hasKeyLoop_avoids hf h key _ list

theorem hashmap_getValue_avoids :
    Avoids e (hashmap_getValue ⟨h, some (table n heads)⟩ key) fun _ => True := by
  rw [hashmap_getValue]
  refine (hashmap_hasKey_avoids hf hn hmax hlength hkey h).bind fun found _ => ?_
  split
  · exact Avoids.ok trivial
  · refine (bucketOf_avoids hn hmax hlength hkey).bind fun i hi => ?_
    refine (list_avoids hi).bind fun list _ => ?_
    refine (findLoop_avoids hf h key _ list).bind fun p _ => ?_
    refine (node_avoids hf h p).bind fun x _ => ?_
    exact (pair_avoids hf h _).bind fun _ _ => Avoids.ok trivial

theorem hashmap_insert_avoids (v : CString) (new : NewBlocks) :
    Avoids e (hashmap_insert ⟨h, some (table n heads)⟩ key v new) fun _ => True := by
  rw [hashmap_insert]
  refine (hashmap_hasKey_avoids hf hn hmax hlength hkey h).bind fun found _ => ?_
  split
  · exact Avoids.ok trivial
  · refine (bucketOf_avoids hn hmax hlength hkey).bind fun i hi => ?_
    refine (list_avoids hi).bind fun list _ => ?_
    refine (makeNode_avoids hf h new key v).bind fun h₁ _ => ?_
    split
    · exact (setList_avoids hi _).bind fun _ _ => Avoids.ok trivial
    · refine (lastLoop_avoids hf h₁ _ list).bind fun last _ => ?_
      exact (setNext_avoids hf h₁ last _).bind fun _ _ => Avoids.ok trivial

theorem hashmap_removeKey_avoids :
    Avoids e (hashmap_removeKey ⟨h, some (table n heads)⟩ key) fun _ => True := by
  rw [hashmap_removeKey]
  refine (hashmap_hasKey_avoids hf hn hmax hlength hkey h).bind fun found _ => ?_
  split
  · exact Avoids.ok trivial
  · refine (bucketOf_avoids hn hmax hlength hkey).bind fun i hi => ?_
    refine (list_avoids hi).bind fun list _ => ?_
    refine (nodeKey_avoids hf h list).bind fun s _ => ?_
    split
    · refine (list_avoids hi).bind fun first _ => ?_
      refine (node_avoids hf h first).bind fun x _ => ?_
      refine (setList_avoids hi _).bind fun m _ => ?_
      exact (freeEntry_avoids hf h list).bind fun _ _ => Avoids.ok trivial
    · refine (node_avoids hf h list).bind fun x _ => ?_
      refine (removeLoop_avoids hf h key _ _).bind fun q _ => ?_
      refine (node_avoids hf h q.1).bind fun y _ => ?_
      refine (setNext_avoids hf h q.2 _).bind fun h₁ _ => ?_
      exact (freeEntry_avoids hf h₁ q.1).bind fun _ _ => Avoids.ok trivial

theorem hashmap_update_avoids (v : CString) (newval : ℕ) :
    Avoids e (hashmap_update ⟨h, some (table n heads)⟩ key v newval) fun _ => True := by
  rw [hashmap_update]
  refine (hashmap_hasKey_avoids hf hn hmax hlength hkey h).bind fun found _ => ?_
  split
  · exact Avoids.ok trivial
  · refine (bucketOf_avoids hn hmax hlength hkey).bind fun i hi => ?_
    refine (list_avoids hi).bind fun list _ => ?_
    refine (findLoop_avoids hf h key _ list).bind fun p _ => ?_
    refine (strcpy_avoids hf _ newval v).bind fun h₁ _ => ?_
    refine (node_avoids hf h₁ p).bind fun x _ => ?_
    refine (pair_avoids hf h₁ _).bind fun kv _ => ?_
    refine (setValue_avoids hf h₁ _ newval).bind fun h₂ _ => ?_
    exact (freeBuffer_avoids hf h₂ _).bind fun _ _ => Avoids.ok trivial

omit hn hmax hlength hkey in
theorem pointedString_avoids (p : ℕ) : Avoids e (pointedString h p) fun _ => True := by
  rw [pointedString]
  split
  · exact Avoids.ok trivial
  · exact (string_avoids hf h p).bind fun _ _ => Avoids.ok trivial

end Operations

/-- No operation stops with an index fault, if there are buckets. -/
theorem perform_avoids (hf : IndexFault e) (hn : n ≠ 0) (hmax : n < 2 ^ 32)
    (hlength : heads.length = n) (h : Heap) (c : Call) (hkey : strlen c.key < 2 ^ 31) :
    Avoids e (perform ⟨h, some (table n heads)⟩ c) fun _ => True := by
  cases c with
  | insert k v new =>
    exact (hashmap_insert_avoids hf hn hmax hlength hkey h v new).bind fun _ _ =>
      Avoids.ok trivial
  | update k v newval =>
    exact (hashmap_update_avoids hf hn hmax hlength hkey h v newval).bind fun _ _ =>
      Avoids.ok trivial
  | removeKey k =>
    exact (hashmap_removeKey_avoids hf hn hmax hlength hkey h).bind fun _ _ => Avoids.ok trivial
  | hasKey k =>
    exact (hashmap_hasKey_avoids hf hn hmax hlength hkey h).bind fun _ _ => Avoids.ok trivial
  | getValue k =>
    refine (hashmap_getValue_avoids hf hn hmax hlength hkey h).bind fun p _ => ?_
    exact (pointedString_avoids hf h p).bind fun _ _ => Avoids.ok trivial

/-! ## The claim -/

theorem indexesInside_of_ne (hn : n ≠ 0) (hmax : n < 2 ^ 32) : IndexesInside n := by
  intro h stale hlength
  refine ⟨fun m hm key hkey => ?_, fun c hkey e hf => ?_⟩
  · obtain rfl := Option.some.inj hm
    exact bucketOf_inside stale hn hmax hkey
  · exact (perform_avoids hf hn hmax hlength h c hkey).1

theorem not_indexesInside_zero : ¬ IndexesInside 0 := by
  intro hinside
  obtain ⟨-, hno⟩ := hinside ⟨fun _ => none, fun _ => none, fun _ => none⟩ [] rfl
  exact hno (.hasKey ⟨[], List.not_mem_nil⟩) (by decide) _ .divisionByZero
    (perform_no_buckets _ _ _)

/-- **Bucket arithmetic** stays in the array for every count of an `unsigned int` but
zero. -/
theorem indexes_inside_iff (hmax : n < 2 ^ 32) : IndexesInside n ↔ n ≠ 0 := by
  refine ⟨fun hinside hn => ?_, fun hn => indexesInside_of_ne hn hmax⟩
  rw [hn] at hinside
  exact not_indexesInside_zero hinside

theorem indexes_inside_five : 5 < 2 ^ 32 ∧ (IndexesInside 5 ↔ 5 ≠ 0) :=
  ⟨by decide, indexes_inside_iff (by decide)⟩

/-- A map without buckets divides by zero. -/
theorem not_indexes_inside : ¬ ∀ n < 2 ^ 32, IndexesInside n :=
  fun hall => not_indexesInside_zero (hall 0 (by decide))

end MyHashmap
end SystemsProjects

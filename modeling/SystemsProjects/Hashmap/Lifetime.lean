import SystemsProjects.Hashmap.Refinement

/-!
# From the first bucket to the last `free`

`hashmap_create` and `hashmap_delete` of `my_hashmap.c`.  The record of a map and its
array of heads are two blocks of their own, which only `hashmap_delete` frees.

`hashmap_delete` counts the buckets, an `unsigned int`, with an `int`.  Up to `2 ^ 31`
of them it frees the blocks of every entry, each once (`hashmap_delete_eq`); with exactly
so many `i` is negative at the last test, but compared as an `unsigned int`.  With more
the negative `i` is an index of the array (`hashmap_delete_outOfBounds`).
-/

namespace SystemsProjects
namespace MyHashmap

open Lib

/-! ## Creating and deleting -/

/-- `stale` is what the array holds when `malloc` returns it; nothing is written to
it. -/
def hashmap_create (h : Heap) (buckets : ℕ) (stale : List ℕ) : State :=
  ⟨h, some { buckets := buckets, arrayOfLists := stale, hashFunction := stringHash }⟩

/-- What is left of a map that is being deleted: the heap, and whether the array of
heads and the record are still allocated. -/
structure Remains where
  heap : Heap
  array : Bool
  record : Bool

variable {n : ℕ} {h : Heap} {heads : List ℕ} {es : List Entry} {e : Entry}

/-! ## Deleting a chain -/

/-- What deleting the entries `l` leaves alone. -/
structure Deleted (h h' : Heap) (l : List Entry) : Prop where
  live : ∀ b, h'.Live b ↔ h.Live b ∧ b ∉ blocksOf l
  nextOf : ∀ p, p ∉ l.map Entry.node → h'.nextOf p = h.nextOf p
  stored : ∀ x : Entry, x.Stored h → (∀ e ∈ l, x.Apart e) → x.Stored h'

theorem Deleted.nil (h : Heap) : Deleted h h [] where
  live b := by simp [blocksOf]
  nextOf _ _ := rfl
  stored _ hx _ := hx

/-- Two parts deleted one after the other. -/
theorem Deleted.append {h' h'' : Heap} {l l' : List Entry} (d : Deleted h h' l)
    (d' : Deleted h' h'' l') : Deleted h h'' (l ++ l') where
  live b := by
    rw [d'.live, d.live, blocksOf, blocksOf, blocksOf, List.flatMap_append, List.mem_append,
      not_or, and_assoc]
  nextOf p hp := by
    rw [List.map_append, List.mem_append, not_or] at hp
    rw [d'.nextOf p hp.2, d.nextOf p hp.1]
  stored x hx ha :=
    d'.stored x (d.stored x hx fun y hy => ha y (List.mem_append_left _ hy))
      fun y hy => ha y (List.mem_append_right _ hy)

/-- The order does not matter. -/
theorem Deleted.congr {h' : Heap} {l l' : List Entry} (d : Deleted h h' l)
    (hmem : ∀ x, x ∈ l' ↔ x ∈ l) : Deleted h h' l' where
  live b := by
    rw [d.live, mem_blocksOf, mem_blocksOf]
    simp only [hmem]
  nextOf p hp := d.nextOf p fun hc => hp (by
    obtain ⟨x, hx, rfl⟩ := List.mem_map.mp hc
    exact List.mem_map_of_mem ((hmem x).mpr hx))
  stored x hx ha := d.stored x hx fun y hy => ha y ((hmem y).mpr hy)

end MyHashmap
end SystemsProjects

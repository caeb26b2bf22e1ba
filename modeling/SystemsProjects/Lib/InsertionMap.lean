import Mathlib

/-!
# Maps that remember the order of insertion

A finite map kept as the list of its entries, oldest first.  Inserting a key that
is present changes nothing, updating a key that is absent changes nothing, an
update keeps the place of its key.  That no key occurs twice is part of the
structure.

`find` reads the list as a function.  The lemmas `find_insert`, `find_update` and
`find_remove` say that the three operations are the operations of a finite map
on that function.
-/

namespace SystemsProjects
namespace Lib

variable {α β : Type*} [DecidableEq α]

/-- The entries of a finite map, oldest first. -/
structure InsertionMap (α β : Type*) where
  entries : List (α × β)
  nodup : (entries.map Prod.fst).Nodup

namespace InsertionMap

/-- The map without entries. -/
def empty : InsertionMap α β := ⟨[], List.nodup_nil⟩

/-- The keys, oldest first. -/
def keys (m : InsertionMap α β) : List α := m.entries.map Prod.fst

/-- The value of a key. -/
def find (m : InsertionMap α β) (k : α) : Option β :=
  (m.entries.find? fun e => e.1 = k).map Prod.snd

omit [DecidableEq α] in
theorem nodup_append {l : List (α × β)} {k : α} (h : (l.map Prod.fst).Nodup)
    (hk : k ∉ l.map Prod.fst) (v : β) : ((l ++ [(k, v)]).map Prod.fst).Nodup := by
  rw [List.map_append]
  refine List.Nodup.append h (List.nodup_singleton k) fun a ha hak => hk ?_
  have hak' : a = k := List.mem_singleton.mp hak
  rw [← hak']
  exact ha

theorem map_fst_update (l : List (α × β)) (k : α) (v : β) :
    (l.map fun e => if e.1 = k then (e.1, v) else e).map Prod.fst = l.map Prod.fst := by
  rw [List.map_map]
  refine List.map_congr_left fun e _ => ?_
  rw [Function.comp_apply]
  split <;> rfl

/-- Add an entry for a key that has none. -/
def insert (m : InsertionMap α β) (k : α) (v : β) : InsertionMap α β :=
  if h : k ∈ m.keys then m else ⟨m.entries ++ [(k, v)], nodup_append m.nodup h v⟩

/-- Change the value of a key that has one. -/
def update (m : InsertionMap α β) (k : α) (v : β) : InsertionMap α β :=
  ⟨m.entries.map fun e => if e.1 = k then (e.1, v) else e, by
    rw [map_fst_update]
    exact m.nodup⟩

/-- Delete the entry of a key. -/
def remove (m : InsertionMap α β) (k : α) : InsertionMap α β :=
  ⟨m.entries.filter fun e => e.1 ≠ k, m.nodup.sublist (List.filter_sublist.map _)⟩

/-! ## The entries -/

theorem insert_of_mem {m : InsertionMap α β} {k : α} (hk : k ∈ m.keys) (v : β) :
    m.insert k v = m :=
  dif_pos hk

theorem entries_insert {m : InsertionMap α β} {k : α} (hk : k ∉ m.keys) (v : β) :
    (m.insert k v).entries = m.entries ++ [(k, v)] := by
  rw [insert, dif_neg hk]

theorem entries_update (m : InsertionMap α β) (k : α) (v : β) :
    (m.update k v).entries = m.entries.map fun e => if e.1 = k then (e.1, v) else e := rfl

theorem entries_remove (m : InsertionMap α β) (k : α) :
    (m.remove k).entries = m.entries.filter fun e => e.1 ≠ k := rfl

omit [DecidableEq α] in
theorem ext_entries {m m' : InsertionMap α β} (h : m.entries = m'.entries) : m = m' := by
  cases m
  cases m'
  cases h
  rfl

omit [DecidableEq α] in
theorem ne_of_mem_entries {m : InsertionMap α β} {k : α} (hk : k ∉ m.keys) {e : α × β}
    (he : e ∈ m.entries) : e.1 ≠ k := by
  rintro rfl
  exact hk (List.mem_map_of_mem he)

theorem update_of_notMem {m : InsertionMap α β} {k : α} (hk : k ∉ m.keys) (v : β) :
    m.update k v = m := by
  refine ext_entries ?_
  rw [entries_update]
  conv_rhs => rw [← List.map_id m.entries]
  exact List.map_congr_left fun e he => if_neg (ne_of_mem_entries hk he)

/-! ## The map as a function -/

@[simp] theorem find_empty (k : α) : (empty : InsertionMap α β).find k = none := rfl

theorem find_eq_some_iff {m : InsertionMap α β} {k : α} {v : β} :
    m.find k = some v ↔ (k, v) ∈ m.entries := by
  rw [find, Option.map_eq_some_iff]
  constructor
  · rintro ⟨e, he, rfl⟩
    have hk : e.1 = k := by simpa using List.find?_some he
    rw [← hk]
    exact List.mem_of_find?_eq_some he
  · intro hmem
    obtain ⟨e, he⟩ : ∃ e, m.entries.find? (fun e => e.1 = k) = some e := by
      rw [← Option.isSome_iff_exists, List.find?_isSome]
      exact ⟨(k, v), hmem, decide_eq_true rfl⟩
    have hk : e.1 = k := by simpa using List.find?_some he
    have heq : e = (k, v) :=
      List.inj_on_of_nodup_map m.nodup (List.mem_of_find?_eq_some he) hmem hk
    exact ⟨e, he, by rw [heq]⟩

theorem find_isSome_iff {m : InsertionMap α β} {k : α} :
    (m.find k).isSome ↔ k ∈ m.keys := by
  rw [Option.isSome_iff_exists, keys, List.mem_map]
  constructor
  · rintro ⟨v, hv⟩
    exact ⟨(k, v), find_eq_some_iff.mp hv, rfl⟩
  · rintro ⟨⟨k', v⟩, he, rfl⟩
    exact ⟨v, find_eq_some_iff.mpr he⟩

theorem find_insert (m : InsertionMap α β) (k : α) (v : β) :
    (m.insert k v).find =
      if (m.find k).isSome then m.find else Function.update m.find k (some v) := by
  by_cases hk : k ∈ m.keys
  · rw [insert_of_mem hk, if_pos (find_isSome_iff.mpr hk)]
  · rw [if_neg fun h => hk (find_isSome_iff.mp h)]
    funext j
    refine Option.ext fun w => ?_
    rw [find_eq_some_iff, entries_insert hk, List.mem_append, List.mem_singleton]
    by_cases hj : j = k
    · rw [hj, Function.update_self, Option.some.injEq, Prod.mk.injEq]
      constructor
      · rintro (he | ⟨-, rfl⟩)
        · exact absurd (List.mem_map_of_mem he) hk
        · rfl
      · rintro rfl
        exact Or.inr ⟨rfl, rfl⟩
    · rw [Function.update_of_ne hj, find_eq_some_iff, Prod.mk.injEq]
      exact ⟨fun h => h.resolve_right fun hjk => hj hjk.1, Or.inl⟩

theorem find_update (m : InsertionMap α β) (k : α) (v : β) :
    (m.update k v).find =
      if (m.find k).isSome then Function.update m.find k (some v) else m.find := by
  by_cases hk : k ∈ m.keys
  · rw [if_pos (find_isSome_iff.mpr hk)]
    funext j
    refine Option.ext fun w => ?_
    rw [find_eq_some_iff, entries_update, List.mem_map]
    by_cases hj : j = k
    · rw [hj, Function.update_self, Option.some.injEq]
      constructor
      · rintro ⟨e, -, heq⟩
        by_cases hek : e.1 = k
        · rw [if_pos hek, Prod.mk.injEq] at heq
          exact heq.2
        · rw [if_neg hek] at heq
          exact absurd (congrArg Prod.fst heq) hek
      · rintro rfl
        obtain ⟨e, he, rfl⟩ := List.mem_map.mp hk
        exact ⟨e, he, if_pos rfl⟩
    · rw [Function.update_of_ne hj, find_eq_some_iff]
      constructor
      · rintro ⟨e, he, heq⟩
        by_cases hek : e.1 = k
        · rw [if_pos hek, Prod.mk.injEq] at heq
          exact absurd (heq.1.symm.trans hek) hj
        · rw [if_neg hek] at heq
          exact heq ▸ he
      · exact fun he => ⟨(j, w), he, if_neg hj⟩
  · rw [update_of_notMem hk, if_neg fun h => hk (find_isSome_iff.mp h)]

theorem find_remove (m : InsertionMap α β) (k : α) :
    (m.remove k).find = Function.update m.find k none := by
  funext j
  refine Option.ext fun w => ?_
  rw [find_eq_some_iff, entries_remove, List.mem_filter]
  by_cases hj : j = k
  · rw [hj, Function.update_self]
    exact iff_of_false (fun h => of_decide_eq_true h.2 rfl) (fun h => nomatch h)
  · rw [Function.update_of_ne hj, find_eq_some_iff]
    exact ⟨fun h => h.1, fun h => ⟨h, decide_eq_true hj⟩⟩

end InsertionMap

end Lib
end SystemsProjects

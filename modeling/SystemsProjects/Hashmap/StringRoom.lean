import SystemsProjects.Hashmap.Ownership

/-!
# Room for the strings

A buffer has room for its string if it was allocated with a byte more than `strlen`
counts.  `hashmap_insert` allocates `strlen(key)` and `strlen(value)` bytes, one too few
for every string, and `hashmap_update` the size of a pointer.  So the first insertion
puts two strings into the map that are not whole, and nothing else can: before it there
is no key to update.

`whole_iff` is about runs: in all states of a run the stored strings are whole exactly
if the run does not insert.
-/

namespace SystemsProjects
namespace MyHashmap

open Lib

/-- The buffer holds a string and was allocated large enough for it. -/
def HasRoom (h : Heap) (p : ℕ) : Prop :=
  ∃ b t, h.buffers p = some b ∧ b.contents = some t ∧ strlen t + 1 ≤ b.size

/-- **The stored strings are whole**: those of every node on a chain. -/
def Whole (s : State) : Prop :=
  ∀ i p x kv, OnChain s i p → s.heap.nodes p = some x → s.heap.pairs x.kv = some kv →
    HasRoom s.heap kv.key ∧ HasRoom s.heap kv.value

/-- A call of `hashmap_insert`. -/
def Call.IsInsert : Call → Prop
  | .insert _ _ _ => True
  | _ => False

theorem not_hasRoom {h : Heap} {p : ℕ} {t : CString}
    (hp : h.buffers p = some ⟨strlen t, some t⟩) : ¬ HasRoom h p := by
  rintro ⟨b, t', hb, ht', hroom⟩
  rw [hp, Option.some.injEq] at hb
  subst hb
  obtain rfl := Option.some.inj ht'
  exact Nat.not_succ_le_self _ hroom

/-! ## A map without keys -/

variable {n : ℕ} {s s' : State} {k v : CString}

theorem EmptyMap.eq (hs : EmptyMap n s) :
    s = ⟨s.heap, some (table n (List.replicate n 0))⟩ := by
  obtain ⟨h, m⟩ := s
  rw [show m = some (table n (List.replicate n 0)) from hs]

theorem EmptyMap.whole (hs : EmptyMap n s) : Whole s := by
  rintro i p x kv ⟨m, hm, -, hr⟩
  rw [show s.hashmap = some _ from hs, Option.some.injEq] at hm
  subst hm
  rw [show (table n (List.replicate n 0)).arrayOfLists = List.replicate n 0 from rfl,
    getD_replicate_zero] at hr
  cases hr with
  | here hne => exact absurd rfl hne
  | there hne _ => exact absurd rfl hne

theorem list_replicate_zero {z : ℤ} {p : ℕ}
    (hp : (table n (List.replicate n 0)).list z = .ok p) : 0 ≤ z ∧ z < n ∧ p = 0 := by
  rw [Hashmap.list, table] at hp
  dsimp only at hp
  rw [List.length_replicate, getD_replicate_zero] at hp
  split at hp
  · rename_i hz
    exact ⟨hz.1, hz.2, (Except.ok.inj hp).symm⟩
  · cases hp

/-- The search finds nothing. -/
theorem EmptyMap.hasKey_eq_zero (hs : EmptyMap n s) {b : ℤ}
    (hb : hashmap_hasKey s k = .ok b) : b = 0 := by
  rw [hs.eq, hashmap_hasKey] at hb
  dsimp only at hb
  rw [bind_eq_ok] at hb
  obtain ⟨bucket, -, hb⟩ := hb
  rw [bind_eq_ok] at hb
  obtain ⟨p, hp, hb⟩ := hb
  obtain ⟨-, -, rfl⟩ := list_replicate_zero hp
  have c : KeyChain s.heap 0 [] := ⟨rfl, fun x hx => absurd hx List.not_mem_nil⟩
  rw [c.hasKey_loop (by decide), List.map_nil, if_neg List.not_mem_nil,
    Except.ok.injEq] at hb
  exact hb.symm

/-- Only an insertion changes it. -/
theorem EmptyMap.perform_eq (hs : EmptyMap n s) {c : Call} (hc : ¬ c.IsInsert) {a : Answer}
    (hp : perform s c = .ok (s', a)) : s' = s := by
  cases c with
  | insert k v new => exact absurd trivial hc
  | update k v newval =>
    rw [perform, bind_eq_ok] at hp
    obtain ⟨t, ht, hp⟩ := hp
    rw [hs.eq, hashmap_update] at ht
    dsimp only at ht
    rw [bind_eq_ok] at ht
    obtain ⟨b, hb, ht⟩ := ht
    rw [← hs.eq] at hb
    rw [hs.hasKey_eq_zero hb, if_pos rfl, ← hs.eq] at ht
    rw [← (Prod.mk.inj (Except.ok.inj hp)).1, ← Except.ok.inj ht]
  | removeKey k =>
    rw [perform, bind_eq_ok] at hp
    obtain ⟨t, ht, hp⟩ := hp
    rw [hs.eq, hashmap_removeKey] at ht
    dsimp only at ht
    rw [bind_eq_ok] at ht
    obtain ⟨b, hb, ht⟩ := ht
    rw [← hs.eq] at hb
    rw [hs.hasKey_eq_zero hb, if_pos rfl, ← hs.eq] at ht
    rw [← (Prod.mk.inj (Except.ok.inj hp)).1, ← Except.ok.inj ht]
  | hasKey k =>
    rw [perform, bind_eq_ok] at hp
    obtain ⟨b, -, hp⟩ := hp
    exact (Prod.mk.inj (Except.ok.inj hp)).1.symm
  | getValue k =>
    rw [perform, bind_eq_ok] at hp
    obtain ⟨p, -, hp⟩ := hp
    rw [bind_eq_ok] at hp
    obtain ⟨t, -, hp⟩ := hp
    exact (Prod.mk.inj (Except.ok.inj hp)).1.symm

/-- **The first insertion** stores strings that are not whole. -/
theorem EmptyMap.not_whole_insert (hs : EmptyMap n s) {new : NewBlocks} {c : Answer}
    (a : new.Available s.heap) (hp : perform s (.insert k v new) = .ok (s', c)) : ¬ Whole s' := by
  obtain ⟨h', hmake, hnodes, hpairs, hkey, -, -, -⟩ := a.makeNode_effect k v
  rw [perform, bind_eq_ok] at hp
  obtain ⟨t, hi, hp⟩ := hp
  obtain rfl := (Prod.mk.inj (Except.ok.inj hp)).1
  rw [hs.eq, hashmap_insert] at hi
  dsimp only at hi
  rw [bind_eq_ok] at hi
  obtain ⟨b, hb, hi⟩ := hi
  rw [← hs.eq] at hb
  rw [hs.hasKey_eq_zero hb, if_neg (by decide), bind_eq_ok] at hi
  obtain ⟨bucket, -, hi⟩ := hi
  rw [bind_eq_ok] at hi
  obtain ⟨p, hp, hi⟩ := hi
  obtain ⟨hz, hz', rfl⟩ := list_replicate_zero hp
  obtain ⟨i, rfl⟩ := Int.eq_ofNat_of_zero_le hz
  have hin : i < (List.replicate n 0).length := by
    rw [List.length_replicate]
    exact_mod_cast hz'
  rw [hmake, ok_bind, if_pos rfl, setList_table hin, ok_bind] at hi
  obtain rfl := Except.ok.inj hi
  intro hwhole
  have hchain : OnChain ⟨h', some (table n ((List.replicate n 0).set i new.node))⟩ i
      new.node := by
    refine ⟨_, rfl, by exact_mod_cast hz', ?_⟩
    show Reaches 0 h'.nextOf (((List.replicate n 0).set i new.node).getD i 0) new.node
    rw [getD_set_self hin]
    exact Reaches.here a.node.ne_null
  have hnode : h'.nodes new.node = some ⟨0, new.pair⟩ := by rw [hnodes, Function.update_self]
  have hpair : h'.pairs new.pair = some ⟨new.key, new.value⟩ := by
    rw [hpairs, Function.update_self]
  exact not_hasRoom hkey (hwhole i new.node _ _ hchain hnode hpair).1

/-! ## Runs -/

variable {tr : List (Call × Answer)}

theorem EmptyMap.eq_of_run (hs : EmptyMap n s) (hrun : Run Step s tr s')
    (hno : ∀ x ∈ tr, ¬ x.1.IsInsert) : s' = s := by
  induction hrun with
  | nil => rfl
  | cons hstep _ ih =>
    have ht := hs.perform_eq (hno _ List.mem_cons_self) hstep.2
    subst ht
    exact ih hs fun x hx => hno x (List.mem_cons_of_mem _ hx)

/-- **Whole strings.**  In a run on a map without keys, all states have whole strings
exactly if there is no call of `hashmap_insert`. -/
theorem whole_iff (n : ℕ) (s₀ s : State) (tr : List (Call × Answer)) (hs₀ : EmptyMap n s₀)
    (hrun : Run Step s₀ tr s) :
    (∀ tr₁ tr₂ t, tr = tr₁ ++ tr₂ → Run Step s₀ tr₁ t → Whole t) ↔
      ∀ x ∈ tr, ¬ x.1.IsInsert := by
  constructor
  · intro hwhole
    induction hrun with
    | nil => exact fun x hx => absurd hx List.not_mem_nil
    | @cons s₀ t u c a tr hstep hrest ih =>
      have hc : ¬ c.IsInsert := by
        cases c with
        | insert k v new =>
          have hfirst := Run.cons hstep (Run.nil t)
          exact absurd (hwhole _ tr t rfl hfirst) (hs₀.not_whole_insert hstep.1 hstep.2)
        | update => exact id
        | removeKey => exact id
        | hasKey => exact id
        | getValue => exact id
      have ht : t = s₀ := hs₀.perform_eq hc hstep.2
      intro x hx
      rcases List.mem_cons.mp hx with rfl | hx
      · exact hc
      · refine ih (ht ▸ hs₀) (fun tr₁ tr₂ t' hsplit hrun' => ?_) x hx
        exact hwhole ((c, a) :: tr₁) tr₂ t' (by rw [hsplit]; rfl) (Run.cons hstep hrun')
  · intro hno tr₁ tr₂ t hsplit hrun'
    have ht : t = s₀ := hs₀.eq_of_run hrun' fun x hx =>
      hno x (hsplit ▸ List.mem_append_left _ hx)
    rw [ht]
    exact hs₀.whole

/-- Calls for keys that the map does not have. -/
def absentKeys : List (Call × Answer) :=
  [(.hasKey pig, .int 0), (.update pig farm 16, .done), (.removeKey farm, .done),
    (.getValue pig, .string none), (.hasKey farm, .int 0)]

/-- Looking for a key that is absent, changing its value or removing it keeps the strings
whole. -/
theorem whole_absentKeys :
    ∃ s, Run Step fiveBuckets absentKeys s ∧
      ∀ tr₁ tr₂ t, absentKeys = tr₁ ++ tr₂ → Run Step fiveBuckets tr₁ t → Whole t := by
  have hfresh : fiveBuckets.heap.Fresh 16 := ⟨by decide, by decide, rfl, rfl, rfl⟩
  have hrun : Run Step fiveBuckets absentKeys fiveBuckets :=
    Run.cons ⟨trivial, rfl⟩ (Run.cons ⟨hfresh, rfl⟩ (Run.cons ⟨trivial, rfl⟩
      (Run.cons ⟨trivial, rfl⟩ (Run.cons ⟨trivial, rfl⟩ (Run.nil _)))))
  refine ⟨_, hrun, (whole_iff 5 fiveBuckets _ _ rfl hrun).mpr fun x hx => ?_⟩
  fin_cases hx <;> exact id

/-- The three bytes for "pig" have no room for its NUL. -/
theorem not_whole :
    ∃ s, Run Step fiveBuckets [(.insert pig farm ⟨16, 32, 48, 64⟩, .done)] s ∧ ¬ Whole s := by
  have hnew : (⟨16, 32, 48, 64⟩ : NewBlocks).Available fiveBuckets.heap :=
    ⟨⟨by decide, by decide, rfl, rfl, rfl⟩, ⟨by decide, by decide, rfl, rfl, rfl⟩,
      ⟨by decide, by decide, rfl, rfl, rfl⟩, ⟨by decide, by decide, rfl, rfl, rfl⟩, by decide⟩
  have hempty : EmptyMap 5 fiveBuckets := rfl
  obtain ⟨s, hstep⟩ : ∃ s, Step fiveBuckets (.insert pig farm ⟨16, 32, 48, 64⟩) .done s :=
    ⟨_, hnew, rfl⟩
  exact ⟨s, Run.cons hstep (Run.nil s), hempty.not_whole_insert hnew hstep.2⟩

end MyHashmap
end SystemsProjects

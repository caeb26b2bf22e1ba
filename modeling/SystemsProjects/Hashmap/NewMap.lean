import SystemsProjects.Hashmap.Lifetime

/-!
# A new map

`hashmap_create` does not write to the array of heads, so what a new map contains is
decided by what `malloc` left there.  `IsNew` says what is expected of a new map: no
key is present, and the first insertion makes its key, and no other, present.

`Lists` is the part of `Represents` that searching needs: which keys are found in
each bucket.  It says nothing about who owns the nodes, and the chains of two buckets
may run into each other, as the heads of an array that was not written may do.  With it
`isNew_iff` finds the exact condition, `Foreign`: behind each head there is a chain
that ends, and no key on it belongs there.
-/

namespace SystemsProjects
namespace MyHashmap

open Lib

/-! ## What is expected -/

/-- Behind `p` there is a chain, and no key on it is one of bucket `i` out of `n`. -/
def Foreign (h : Heap) (n i p : ℕ) : Prop :=
  ∃ l : List (ℕ × CString), KeyChain h p l ∧ ∀ x ∈ l, strlen x.2 % n ≠ i

/-- Nodes have addresses of 64 bits. -/
def Addressed (h : Heap) : Prop := ∀ p, h.Live (.node p) → p < 2 ^ 64

/-! ## Reading keys in a heap that grows -/

variable {n : ℕ} {h h' : Heap} {heads stale : List ℕ} {p : ℕ} {k key : CString}
  {l : List (ℕ × CString)} {P : CString → Prop}

/-- The blocks that a key is read through. -/
theorem nodeKey_eq_ok_iff :
    h.nodeKey p = .ok key ↔ ∃ x kv, h.nodes p = some x ∧ h.pairs x.kv = some kv ∧
      (h.buffers kv.key).bind Buffer.contents = some key := by
  constructor
  · intro hk
    rw [Heap.nodeKey, bind_eq_ok] at hk
    obtain ⟨x, hx, hk⟩ := hk
    rw [bind_eq_ok] at hk
    obtain ⟨kv, hkv, hk⟩ := hk
    refine ⟨x, kv, ?_, ?_, ?_⟩
    · rw [Heap.node] at hx
      generalize h.nodes p = o at hx
      cases o with
      | none => cases hx
      | some y => rw [Except.ok.inj hx]
    · rw [Heap.pair] at hkv
      generalize h.pairs x.kv = o at hkv
      cases o with
      | none => cases hkv
      | some y => rw [Except.ok.inj hkv]
    · rw [Heap.string] at hk
      generalize h.buffers kv.key = o at hk
      cases o with
      | none => cases hk
      | some b =>
        obtain ⟨size, contents⟩ := b
        cases contents with
        | none => cases hk
        | some t => rw [← Except.ok.inj hk]; rfl
  · rintro ⟨x, kv, hx, hkv, hk⟩
    rw [Heap.nodeKey, Heap.node, hx]
    dsimp only
    rw [pure_eq_ok, ok_bind, Heap.pair, hkv]
    dsimp only
    rw [pure_eq_ok, ok_bind]
    exact Entry.Stored.string_of_contents hk

theorem live_of_nodeKey (hk : h.nodeKey p = .ok key) : h.Live (.node p) := by
  obtain ⟨x, -, hx, -, -⟩ := nodeKey_eq_ok_iff.mp hk
  show h.nodes p ≠ none
  rw [hx]
  exact Option.some_ne_none x

/-- What was allocated is still there, up to the links of the nodes. -/
structure Extends (h h' : Heap) : Prop where
  nodes : ∀ p x, h.nodes p = some x → (h'.nodes p).map Node.kv = some x.kv
  pairs : ∀ p x, h.pairs p = some x → h'.pairs p = some x
  buffers : ∀ p x, h.buffers p = some x → h'.buffers p = some x

theorem Extends.nodeKey (x : Extends h h') (hk : h.nodeKey p = .ok key) :
    h'.nodeKey p = .ok key := by
  obtain ⟨y, kv, hy, hkv, hb⟩ := nodeKey_eq_ok_iff.mp hk
  obtain ⟨b, hb, hc⟩ := Option.bind_eq_some_iff.mp hb
  obtain ⟨z, hz, hzy⟩ := Option.map_eq_some_iff.mp (x.nodes p y hy)
  refine nodeKey_eq_ok_iff.mpr ⟨z, kv, hz, ?_, ?_⟩
  · rw [hzy]
    exact x.pairs _ _ hkv
  · rw [x.buffers _ _ hb]
    exact hc

theorem extends_setNode {x : Node} (hx : h.nodes p = some x) (q : ℕ) :
    Extends h (h.setNode p (some { x with next := q })) where
  nodes a y hy := by
    by_cases ha : a = p
    · rw [ha, hx, Option.some.injEq] at hy
      rw [ha, Heap.setNode_nodes_self, ← hy]
      rfl
    · rw [h.setNode_nodes_of_ne ha, hy]
      rfl
  pairs _ _ hy := hy
  buffers _ _ hy := hy

/-- A chain whose links are kept. -/
theorem KeyChain.congr (c : KeyChain h p l) (x : Extends h h')
    (hnext : ∀ y ∈ l, h'.nextOf y.1 = h.nextOf y.1) : KeyChain h' p l where
  visits := c.visits.congr fun a ha => by
    obtain ⟨y, hy, rfl⟩ := List.mem_map.mp ha
    exact hnext y hy
  key y hy := x.nodeKey (c.key y hy)

theorem KeyChain.length_lt (c : KeyChain h p l) (ha : Addressed h) : l.length < addresses := by
  rw [← List.length_map (f := Prod.fst)]
  refine c.visits.length_lt (fun a hmem => ?_) (by decide)
  obtain ⟨y, hy, rfl⟩ := List.mem_map.mp hmem
  exact ha _ (live_of_nodeKey (c.key y hy))

/-! ## What is found in the buckets -/

/-- **The keys that are found**: behind the head of each bucket there is a chain, and of
the keys of this bucket those with `P` are on it. -/
structure Lists (n : ℕ) (h : Heap) (heads : List ℕ) (P : CString → Prop) : Prop where
  length : heads.length = n
  chain : ∀ i < n, ∃ l : List (ℕ × CString), KeyChain h (heads.getD i 0) l ∧
    ∀ k, strlen k % n = i → (k ∈ l.map Prod.snd ↔ P k)

namespace NewBlocks.Available

variable {new : NewBlocks} {v : CString}

/-- The new node with its key, in a heap that extends the old one. -/
theorem makeNode_extends (a : new.Available h) (k v : CString) :
    ∃ h', MyHashmap.makeNode h new k v = .ok h' ∧ Extends h h' ∧
      h'.nodeKey new.node = .ok k ∧ h'.nextOf new.node = 0 ∧
      (∀ p, p ≠ new.node → h'.nextOf p = h.nextOf p) ∧
      ∀ b, h'.Live b ↔ h.Live b ∨ b ∈ (new.entry k v).blocks := by
  obtain ⟨h', hrun, hnodes, hpairs, hkey, -, hbuffers, hlive⟩ := a.makeNode_effect k v
  obtain ⟨h'', hrun', hnew, -, hnext₀, hnext, -⟩ := a.makeNode k v
  rw [hrun, Except.ok.injEq] at hrun'
  subst hrun'
  refine ⟨h', hrun, ⟨fun p x hx => ?_, fun p x hx => ?_, fun p x hx => ?_⟩, hnew.nodeKey_eq,
    hnext₀, hnext, hlive⟩
  · have hp : p ≠ new.node := by
      rintro rfl
      rw [a.node.nodes] at hx
      cases hx
    rw [hnodes, Function.update_of_ne hp, hx]
    rfl
  · have hp : p ≠ new.pair := by
      rintro rfl
      rw [a.pair.pairs] at hx
      cases hx
    rw [hpairs, Function.update_of_ne hp, hx]
  · have hp : p ≠ new.key ∧ p ≠ new.value := by
      constructor
      · rintro rfl
        rw [a.key.buffers] at hx
        cases hx
      · rintro rfl
        rw [a.value.buffers] at hx
        cases hx
    rw [hbuffers p hp.1 hp.2, hx]

end NewBlocks.Available

/-- **Linking in at the end.**  A chain that passes the node `x`, the last one, gets the
new node as well; every other chain stays. -/
theorem KeyChain.link {q : ℕ} {x : Node} (c : KeyChain h p l) (hx : h.nodes q = some x)
    (hlast : h.nextOf q = 0) {new : ℕ} (hnew : new ≠ 0) (hne : new ≠ q)
    (hkey : h.nodeKey new = .ok k) (hnext : h.nextOf new = 0) :
    ∃ l', KeyChain (h.setNode q (some { x with next := new })) p l' ∧
      (q ∈ l.map Prod.fst → l' = l ++ [(new, k)]) ∧ (q ∉ l.map Prod.fst → l' = l) := by
  have hext := extends_setNode hx new
  by_cases hq : q ∈ l.map Prod.fst
  · refine ⟨l ++ [(new, k)], ⟨?_, fun y hy => ?_⟩, fun _ => rfl, fun hc => absurd hq hc⟩
    · obtain ⟨front, rest, hsplit⟩ := List.append_of_mem hq
      have hv := c.visits
      rw [hsplit] at hv
      have hrest : rest = [] := by
        have hq' := (Visits.suffix hv).2.2
        rw [hlast] at hq'
        exact hq'.eq_null_iff.mp rfl
      rw [hrest] at hsplit hv
      rw [List.map_append, hsplit]
      refine hv.snoc hnew (h.nextOf_setNode_self _ _) ?_ fun a ha => ?_
      · rw [h.nextOf_setNode_of_ne hne]
        exact hnext
      · refine h.nextOf_setNode_of_ne (fun hc => ?_) _
        have hnodup := hv.nodup
        rw [List.nodup_append] at hnodup
        exact hnodup.2.2 a ha _ (List.mem_singleton_self _) hc
    · rcases List.mem_append.mp hy with hy | hy
      · exact hext.nodeKey (c.key y hy)
      · rw [List.mem_singleton.mp hy]
        exact hext.nodeKey hkey
  · refine ⟨l, c.congr hext fun y hy => h.nextOf_setNode_of_ne (fun hc => hq ?_) _,
      fun hc => absurd hc hq, fun _ => rfl⟩
    exact List.mem_map.mpr ⟨y, hy, hc⟩

namespace Lists

/-- More nodes, and the same links. -/
theorem extend (r : Lists n h heads P) {h₁ : Heap} (hext : Extends h h₁)
    (hnext : ∀ p, h.Live (.node p) → h₁.nextOf p = h.nextOf p) : Lists n h₁ heads P where
  length := r.length
  chain i hi := by
    obtain ⟨l, c, hl⟩ := r.chain i hi
    exact ⟨l, c.congr hext fun y hy => hnext _ (live_of_nodeKey (c.key y hy)), hl⟩

section Link

variable (r : Lists n h heads P) {new : ℕ} (hnew : new ≠ 0) (hkey : h.nodeKey new = .ok k)
  (hnext : h.nextOf new = 0)

include r hnew hkey hnext

/-- **The new node is the head** of a bucket that was empty. -/
theorem start (hlt : strlen k % n < n) (hempty : heads.getD (strlen k % n) 0 = 0) :
    Lists n h (heads.set (strlen k % n) new) fun k' => P k' ∨ k' = k where
  length := by rw [List.length_set, r.length]
  chain i hi := by
    obtain ⟨l, c, hl⟩ := r.chain i hi
    by_cases hib : i = strlen k % n
    · subst hib
      rw [hempty] at c
      have hnil : l = [] := List.map_eq_nil_iff.mp (c.visits.eq_null_iff.mp rfl)
      rw [getD_set_self (by rw [r.length]; exact hlt)]
      refine ⟨[(new, k)], ⟨⟨rfl, hnew, hnext⟩, fun y hy => ?_⟩, fun k' hk' => ?_⟩
      · rw [List.mem_singleton.mp hy]
        exact hkey
      · rw [← hl k' hk', hnil]
        simp
    · rw [getD_set_of_ne heads hib]
      refine ⟨l, c, fun k' hk' => (hl k' hk').trans (or_iff_left fun hc => hib ?_).symm⟩
      rw [← hk', hc]

/-- **The new node is linked in behind the last one** of its bucket. -/
theorem link {front : List (ℕ × CString)} {x : ℕ × CString} {y : Node}
    (c : KeyChain h (heads.getD (strlen k % n) 0) (front ++ [x])) (hy : h.nodes x.1 = some y)
    (hne : new ≠ x.1) :
    Lists n (h.setNode x.1 (some { y with next := new })) heads fun k' => P k' ∨ k' = k where
  length := r.length
  chain i hi := by
    have hlast : h.nextOf x.1 = 0 := by
      have hv := c.visits
      rw [List.map_append] at hv
      exact hv.next_last
    obtain ⟨l, c', hl⟩ := r.chain i hi
    obtain ⟨l', c'', hin, hout⟩ := c'.link hy hlast hnew hne hkey hnext
    refine ⟨l', c'', fun k' hk' => ?_⟩
    by_cases hib : i = strlen k % n
    · subst hib
      have hmem : x.1 ∈ l.map Prod.fst := by
        rw [c'.visits.unique c.visits]
        exact List.mem_map_of_mem (List.mem_append_right _ (List.mem_singleton_self x))
      rw [hin hmem, List.map_append, List.mem_append, hl k' hk']
      simp
    · have hother : ¬ k' = k := fun hc => hib (by rw [← hk', hc])
      rw [or_iff_left hother, ← hl k' hk']
      by_cases hx : x.1 ∈ l.map Prod.fst
      · rw [hin hx, List.map_append, List.mem_append]
        exact or_iff_left fun hc => hother (by simpa using hc)
      · rw [hout hx]

end Link

end Lists

section Insert

variable (hn : 1 ≤ n) (hmax : n ≤ 2 ^ 31 - 1)

include hn hmax

open Classical in
theorem Lists.hasKey (r : Lists n h heads P) (ha : Addressed h) (k : CString) :
    hashmap_hasKey ⟨h, some (table n heads)⟩ k = .ok (if P k then 1 else 0) := by
  have hlt : strlen k % n < n := Nat.mod_lt _ hn
  obtain ⟨l, c, hl⟩ := r.chain _ hlt
  rw [hashmap_hasKey]
  dsimp only
  rw [bucketOf_table hn hmax, ok_bind, list_table (by rw [r.length]; exact hlt), ok_bind,
    c.hasKey_loop (c.length_lt ha)]
  simp only [hl k rfl]

/-- **The insertion of a key that is not found** makes it found. -/
theorem Lists.insert (r : Lists n h heads P) (ha : Addressed h) (hk : ¬ P k) (v : CString)
    {new : NewBlocks} (a : new.Available h) :
    ∃ h' heads', hashmap_insert ⟨h, some (table n heads)⟩ k v new =
        .ok ⟨h', some (table n heads')⟩ ∧ Addressed h' ∧
      Lists n h' heads' fun k' => P k' ∨ k' = k := by
  obtain ⟨h₁, hmake, hext, hkey, hnext₀, hnext, hlive⟩ := a.makeNode_extends k v
  have ha₁ : Addressed h₁ := by
    intro p hp
    rcases (hlive _).mp hp with hp | hp
    · exact ha p hp
    · simp only [Entry.blocks, NewBlocks.entry, List.mem_cons, Block.node.injEq, reduceCtorEq,
        List.not_mem_nil, or_false] at hp
      rw [hp]
      exact a.node.lt
  have hold : ∀ p, h.Live (.node p) → h₁.nextOf p = h.nextOf p := fun p hp => hnext p fun hc => by
    rw [hc] at hp
    exact hp a.node.nodes
  have r₁ := r.extend hext hold
  have hlt : strlen k % n < n := Nat.mod_lt _ hn
  obtain ⟨l, c, -⟩ := r.chain _ hlt
  have c₁ := c.congr hext fun y hy => hold _ (live_of_nodeKey (c.key y hy))
  have hzero : hashmap_hasKey ⟨h, some (table n heads)⟩ k = .ok 0 := by
    rw [r.hasKey hn hmax ha, if_neg hk]
  rw [hashmap_insert_new hn (indexed_of_le hn hmax k) r.length hzero hmake]
  rcases List.eq_nil_or_concat l with rfl | ⟨front, x, rfl⟩
  · have hhead : heads.getD (strlen k % n) 0 = 0 := c₁.visits
    rw [if_pos hhead]
    exact ⟨h₁, _, rfl, ha₁, r₁.start a.node.ne_null hkey hnext₀ hlt hhead⟩
  · rw [List.concat_eq_append] at c c₁
    have hhead : heads.getD (strlen k % n) 0 ≠ 0 := by
      rw [Ne, c₁.visits.eq_null_iff, List.map_eq_nil_iff]
      exact List.append_ne_nil_of_right_ne_nil _ (List.cons_ne_nil _ _)
    have hfuel : front.length < addresses := by
      have hlen := c₁.length_lt ha₁
      rw [List.length_append] at hlen
      exact Nat.lt_of_add_right_lt hlen
    obtain ⟨y, -, hy, -, -⟩ :=
      nodeKey_eq_ok_iff.mp (c₁.key x (List.mem_append_right _ (List.mem_singleton_self x)))
    have hset : h₁.setNext x.1 new.node =
        .ok (h₁.setNode x.1 (some { y with next := new.node })) := by
      rw [Heap.setNext, Heap.node, hy]
      rfl
    have hxnew : new.node ≠ x.1 := fun hc => by
      have hx := live_of_nodeKey
        (c.key x (List.mem_append_right _ (List.mem_singleton_self x)))
      rw [← hc] at hx
      exact hx a.node.nodes
    rw [if_neg hhead, c₁.last_loop hfuel, ok_bind, hset, ok_bind]
    refine ⟨_, heads, rfl, fun p hp => ?_, r₁.link a.node.ne_null hkey hnext₀ c₁ hy hxnew⟩
    refine ha₁ p ((Heap.live_setNode_of_live _ ?_ _ _).mp hp)
    rw [hy]
    exact Option.some_ne_none y

end Insert

/-! ## The condition -/

/-- A memory in which nothing is allocated. -/
def emptyHeap : Heap := ⟨fun _ => none, fun _ => none, fun _ => none⟩

end MyHashmap
end SystemsProjects

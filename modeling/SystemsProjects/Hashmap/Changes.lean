import SystemsProjects.Hashmap.Chains

/-!
# Inserting, updating, removing

What the three operations that write do to a represented list of entries.

* `hashmap_insert` on an absent key appends an entry, in the blocks that `malloc`
  gave it;
* `hashmap_update` on a present key gives its entry a new value in a new buffer;
* `hashmap_removeKey` on a present key drops its entry.

On the other keys they do nothing.  Insertion and removal have two cases in the
source, the head of a chain and a later node, which differ in the link that is
changed.  What a changed link does to the represented list is said first
(`Represents.link_head`, `link_last`, `unlink_head`, `unlink_later`), and then that
the operations change these links.
-/

namespace SystemsProjects
namespace MyHashmap

open Lib

variable {n : ℕ} {h h' : Heap} {heads : List ℕ} {es : List Entry} {e : Entry}

/-! ## Stored entries and other blocks -/

namespace Entry.Stored

theorem node_live (s : e.Stored h) : h.nodes e.node ≠ none := by
  intro hc
  have hnode := s.node
  rw [hc] at hnode
  cases hnode

theorem pair_live (s : e.Stored h) : h.pairs e.pair ≠ none := by
  rw [s.pair]
  exact Option.some_ne_none _

theorem keyBuffer_live (s : e.Stored h) : h.buffers e.keyBuffer ≠ none := by
  intro hc
  have hkey := s.key
  rw [hc] at hkey
  cases hkey

theorem valueBuffer_live (s : e.Stored h) : h.buffers e.valueBuffer ≠ none := by
  intro hc
  have hvalue := s.value
  rw [hc] at hvalue
  cases hvalue

/-- A change of links leaves the entries stored. -/
theorem setNext (s : e.Stored h) {x : Entry} (sx : x.Stored h) (q : ℕ) :
    e.Stored (h.setNode x.node (some ⟨q, x.pair⟩)) := by
  refine s.congr ?_ rfl rfl rfl
  by_cases hx : e.node = x.node
  · rw [hx, Heap.setNode_nodes_self, sx.node]
    rfl
  · rw [h.setNode_nodes_of_ne hx]

theorem setNext_eq (s : e.Stored h) (q : ℕ) :
    h.setNext e.node q = .ok (h.setNode e.node (some ⟨q, e.pair⟩)) := by
  rw [Heap.setNext, s.node_eq, ok_bind]
  rfl

end Entry.Stored

/-- The links of the bucket of a chain that is not touched. -/
theorem Represents.nodes_ne (r : Represents n h heads es) {i j : ℕ} (hij : i ≠ j)
    {a b : Entry} (ha : a ∈ inBucket n es i) (hb : b ∈ inBucket n es j) :
    a.node ≠ b.node := by
  obtain ⟨ha, hai⟩ := mem_inBucket.mp ha
  obtain ⟨hb, hbj⟩ := mem_inBucket.mp hb
  have hne : a ≠ b := by
    rintro rfl
    exact hij (hai.symm.trans hbj)
  exact (r.apart_of_ne ha hb hne).node

/-- **A change in one bucket.**  The other heads and the links of the other buckets
are as before, so only the chain of this bucket is to be shown. -/
theorem Represents.of_bucket (r : Represents n h heads es) {b : ℕ} {heads' : List ℕ}
    {es' : List Entry} (hlength : heads'.length = n)
    (hheads : ∀ i, i ≠ b → heads'.getD i 0 = heads.getD i 0)
    (hsame : ∀ i, i ≠ b → inBucket n es' i = inBucket n es i)
    (hnext : ∀ i, i ≠ b → ∀ x ∈ inBucket n es i, h'.nextOf x.node = h.nextOf x.node)
    (hchain : Visits 0 h'.nextOf (heads'.getD b 0) ((inBucket n es' b).map Entry.node))
    (hstored : ∀ x ∈ es', x.Stored h') (hapart : es'.Pairwise Entry.Apart) :
    Represents n h' heads' es' where
  length := hlength
  stored := hstored
  apart := hapart
  chain i hi := by
    by_cases hib : i = b
    · rw [hib]
      exact hchain
    · rw [hheads i hib, hsame i hib]
      refine (r.chain i hi).congr fun a ha => ?_
      obtain ⟨x, hx, rfl⟩ := List.mem_map.mp ha
      exact hnext i hib x hx

theorem getD_set_self {l : List ℕ} {i : ℕ} (hi : i < l.length) (p : ℕ) :
    (l.set i p).getD i 0 = p := by
  rw [List.getD_eq_getElem?_getD, List.getElem?_set_self hi]
  rfl

theorem getD_set_of_ne (l : List ℕ) {i j : ℕ} (hij : j ≠ i) (p : ℕ) :
    (l.set i p).getD j 0 = l.getD j 0 := by
  rw [List.getD_eq_getElem?_getD, List.getD_eq_getElem?_getD,
    List.getElem?_set_ne hij.symm]

/-- The four blocks of an entry. -/
def Entry.blocks (e : Entry) : List Block :=
  [.node e.node, .pair e.pair, .buffer e.keyBuffer, .buffer e.valueBuffer]

/-! ## Insertion -/

/-- What `malloc` may return for the four blocks. -/
structure NewBlocks.Available (h : Heap) (new : NewBlocks) : Prop where
  pair : h.Fresh new.pair
  key : h.Fresh new.key
  value : h.Fresh new.value
  node : h.Fresh new.node
  distinct : [new.pair, new.key, new.value, new.node].Nodup

/-- The entry in the new blocks. -/
def NewBlocks.entry (new : NewBlocks) (key value : CString) : Entry :=
  ⟨new.node, new.pair, new.key, new.value, key, value⟩

namespace NewBlocks.Available

variable {new : NewBlocks} {key value : CString}

theorem key_ne_value (a : new.Available h) : new.key ≠ new.value := by
  have hdistinct := a.distinct
  simp only [List.nodup_cons, List.mem_cons, not_or] at hdistinct
  exact hdistinct.2.1.1

/-- The new blocks belong to no stored entry. -/
theorem apart (a : new.Available h) (s : e.Stored h) (hkey : e.key ≠ key) :
    e.Apart (new.entry key value) where
  node hc := s.node_live (by rw [hc]; exact a.node.nodes)
  pair hc := s.pair_live (by rw [hc]; exact a.pair.pairs)
  keyBuffers hc := s.keyBuffer_live (by rw [hc]; exact a.key.buffers)
  valueBuffers hc := s.valueBuffer_live (by rw [hc]; exact a.value.buffers)
  keyValue hc := s.keyBuffer_live (by rw [hc]; exact a.value.buffers)
  valueKey hc := s.valueBuffer_live (by rw [hc]; exact a.key.buffers)
  key := hkey

/-- **What `hashmap_insert` writes** before it links the new node in. -/
theorem makeNode_effect (a : new.Available h) (key value : CString) :
    ∃ h', MyHashmap.makeNode h new key value = .ok h' ∧
      h'.nodes = Function.update h.nodes new.node (some ⟨0, new.pair⟩) ∧
      h'.pairs = Function.update h.pairs new.pair (some ⟨new.key, new.value⟩) ∧
      h'.buffers new.key = some ⟨strlen key, some key⟩ ∧
      h'.buffers new.value = some ⟨strlen value, some value⟩ ∧
      (∀ p, p ≠ new.key → p ≠ new.value → h'.buffers p = h.buffers p) ∧
      ∀ b, h'.Live b ↔ h.Live b ∨ b ∈ (new.entry key value).blocks := by
  have hne := a.key_ne_value
  set h₁ := (h.setPair new.pair (some ⟨new.key, new.value⟩)).mallocBuffer new.key
    (strlen key) with hh₁
  set h₂ := h₁.mallocBuffer new.value (strlen value) with hh₂
  have hbuffer : h₂.buffers new.key = some ⟨strlen key, none⟩ := by
    rw [hh₂, Heap.mallocBuffer, Heap.setBuffer_buffers_of_ne _ hne, hh₁, Heap.mallocBuffer,
      Heap.setBuffer_buffers_self]
  set h₃ := h₂.setBuffer new.key (some ⟨strlen key, some key⟩) with hh₃
  have hbuffer' : h₃.buffers new.value = some ⟨strlen value, none⟩ := by
    rw [hh₃, Heap.setBuffer_buffers_of_ne _ hne.symm, hh₂, Heap.mallocBuffer,
      Heap.setBuffer_buffers_self]
  set h₄ := h₃.setBuffer new.value (some ⟨strlen value, some value⟩) with hh₄
  refine ⟨h₄.setNode new.node (some ⟨0, new.pair⟩), ?_, rfl, rfl, ?_, ?_, ?_, fun b => ?_⟩
  · rw [MyHashmap.makeNode, ← hh₁, ← hh₂, Heap.strcpy_eq _ hbuffer, ok_bind]
    dsimp only
    rw [← hh₃, Heap.strcpy_eq _ hbuffer', ok_bind]
    rfl
  · rw [Heap.setNode_buffers, hh₄, Heap.setBuffer_buffers_of_ne _ hne, hh₃,
      Heap.setBuffer_buffers_self]
  · rw [Heap.setNode_buffers, hh₄, Heap.setBuffer_buffers_self]
  · intro p hk hv
    rw [Heap.setNode_buffers, hh₄, Heap.setBuffer_buffers_of_ne _ hv, hh₃,
      Heap.setBuffer_buffers_of_ne _ hk, hh₂, Heap.mallocBuffer,
      Heap.setBuffer_buffers_of_ne _ hv, hh₁, Heap.mallocBuffer,
      Heap.setBuffer_buffers_of_ne _ hk]
    rfl
  · rw [Heap.live_setNode_some, hh₄, Heap.live_setBuffer_some, hh₃, Heap.live_setBuffer_some,
      hh₂, Heap.mallocBuffer, Heap.live_setBuffer_some, hh₁, Heap.mallocBuffer,
      Heap.live_setBuffer_some, Heap.live_setPair_some]
    simp only [Entry.blocks, entry, List.mem_cons, List.not_mem_nil, or_false]
    tauto

/-- **The new node** stores the new entry, and the entries that were stored. -/
theorem makeNode (a : new.Available h) (key value : CString) :
    ∃ h', MyHashmap.makeNode h new key value = .ok h' ∧
      (new.entry key value).Stored h' ∧ (∀ e : Entry, e.Stored h → e.Stored h') ∧
      h'.nextOf new.node = 0 ∧ (∀ p, p ≠ new.node → h'.nextOf p = h.nextOf p) ∧
      ∀ b, h'.Live b ↔ h.Live b ∨ b ∈ (new.entry key value).blocks := by
  obtain ⟨h', hrun, hnodes, hpairs, hkey, hvalue, hbuffers, hlive⟩ := a.makeNode_effect key value
  refine ⟨h', hrun, ?_, fun e s => ?_, ?_, fun p hp => ?_, hlive⟩
  · exact
      { node := by rw [entry, hnodes, Function.update_self]; rfl
        pair := by rw [entry, hpairs, Function.update_self]
        key := by rw [entry, hkey]; rfl
        value := by rw [entry, hvalue]; rfl
        buffers_ne := a.key_ne_value
        pair_ne_null := a.pair.ne_null
        keyBuffer_ne_null := a.key.ne_null
        valueBuffer_ne_null := a.value.ne_null
        node_lt := a.node.lt }
  · refine s.congr ?_ ?_ ?_ ?_
    · rw [hnodes, Function.update_of_ne fun hc => s.node_live (by rw [hc]; exact a.node.nodes)]
    · rw [hpairs, Function.update_of_ne fun hc => s.pair_live (by rw [hc]; exact a.pair.pairs)]
    · exact hbuffers _ (fun hc => s.keyBuffer_live (by rw [hc]; exact a.key.buffers))
        fun hc => s.keyBuffer_live (by rw [hc]; exact a.value.buffers)
    · exact hbuffers _ (fun hc => s.valueBuffer_live (by rw [hc]; exact a.key.buffers))
        fun hc => s.valueBuffer_live (by rw [hc]; exact a.value.buffers)
  · rw [Heap.nextOf, hnodes, Function.update_self]
  · rw [Heap.nextOf, Heap.nextOf, hnodes, Function.update_of_ne hp]

end NewBlocks.Available

theorem inBucket_append_of_eq (es : List Entry) {i : ℕ} (hi : strlen e.key % n = i) :
    inBucket n (es ++ [e]) i = inBucket n es i ++ [e] := by
  rw [inBucket, List.filter_append, ← inBucket, List.filter_cons_of_pos (by simpa using hi),
    List.filter_nil]

theorem inBucket_append_of_ne (es : List Entry) {i : ℕ} (hi : strlen e.key % n ≠ i) :
    inBucket n (es ++ [e]) i = inBucket n es i := by
  rw [inBucket, List.filter_append, ← inBucket,
    List.filter_cons_of_neg (by simpa using hi), List.filter_nil, List.append_nil]

section Link

variable (r : Represents n h heads es) (hn : 1 ≤ n) (hnode : e.node ≠ 0)
  (hnext₀ : h'.nextOf e.node = 0) (hstored : ∀ x ∈ es ++ [e], x.Stored h')
  (hapart : (es ++ [e]).Pairwise Entry.Apart)

include r hn hnode hnext₀ hstored hapart

/-- **A new node becomes the head** of an empty chain. -/
theorem Represents.link_head (hempty : inBucket n es (strlen e.key % n) = [])
    (hnext : ∀ x ∈ es, h'.nextOf x.node = h.nextOf x.node) :
    Represents n h' (heads.set (strlen e.key % n) e.node) (es ++ [e]) := by
  have hlt : strlen e.key % n < heads.length := by rw [r.length]; exact Nat.mod_lt _ hn
  refine r.of_bucket (b := strlen e.key % n) ?_ (fun i hi => getD_set_of_ne heads hi _)
    (fun i hi => inBucket_append_of_ne es hi.symm)
    (fun i _ y hy => hnext y (mem_inBucket.mp hy).1) ?_ hstored hapart
  · rw [List.length_set, r.length]
  · rw [getD_set_self hlt, inBucket_append_of_eq es rfl, hempty]
    exact ⟨rfl, hnode, hnext₀⟩

/-- **A new node is linked in** behind the last one of its chain. -/
theorem Represents.link_last {front : List Entry} {x : Entry}
    (hsplit : inBucket n es (strlen e.key % n) = front ++ [x])
    (hlink : h'.nextOf x.node = e.node)
    (hnext : ∀ y ∈ es, y.node ≠ x.node → h'.nextOf y.node = h.nextOf y.node) :
    Represents n h' heads (es ++ [e]) := by
  have hx : x ∈ inBucket n es (strlen e.key % n) := by
    rw [hsplit]
    exact List.mem_append_right _ (List.mem_singleton_self x)
  have hchain := r.chain _ (Nat.mod_lt (strlen e.key) hn)
  rw [hsplit, List.map_append] at hchain
  have hnodup := hchain.nodup
  rw [List.nodup_append] at hnodup
  refine r.of_bucket (b := strlen e.key % n) r.length (fun _ _ => rfl)
    (fun i hi => inBucket_append_of_ne es hi.symm)
    (fun i hi y hy => hnext y (mem_inBucket.mp hy).1 (r.nodes_ne hi hy hx)) ?_ hstored hapart
  rw [inBucket_append_of_eq es rfl, hsplit, List.map_append, List.map_append]
  refine hchain.snoc hnode hlink hnext₀ fun p hp => ?_
  obtain ⟨y, hy, rfl⟩ := List.mem_map.mp hp
  have hyb : y ∈ inBucket n es (strlen e.key % n) := by
    rw [hsplit]
    exact List.mem_append_left _ hy
  exact hnext y (mem_inBucket.mp hyb).1 fun hc =>
    hnodup.2.2 _ hp _ (List.mem_singleton_self _) hc

end Link

section Insert

variable (hn : 1 ≤ n)

include hn

theorem hashmap_insert_present {k : CString} (hidx : Indexed n k) (r : Represents n h heads es)
    (hk : k ∈ es.map Entry.key) (v : CString) (new : NewBlocks) :
    hashmap_insert ⟨h, some (table n heads)⟩ k v new = .ok ⟨h, some (table n heads)⟩ := by
  rw [hashmap_insert]
  dsimp only
  rw [hashmap_hasKey_eq hn hidx r, if_pos hk, ok_bind, if_pos rfl]
  rfl

/-- **`hashmap_insert` of a key that is not found**: the new node becomes the head of its
chain, or the last node of it. -/
theorem hashmap_insert_new {k v : CString} (hidx : Indexed n k) (hlength : heads.length = n)
    {new : NewBlocks} {h₁ : Heap} (hkey : hashmap_hasKey ⟨h, some (table n heads)⟩ k = .ok 0)
    (hmake : makeNode h new k v = .ok h₁) :
    hashmap_insert ⟨h, some (table n heads)⟩ k v new =
      if heads.getD (strlen k % n) 0 = 0 then
        .ok ⟨h₁, some (table n (heads.set (strlen k % n) new.node))⟩
      else (do
        let last ← loop .diverges (lastBody h₁) addresses (heads.getD (strlen k % n) 0)
        let h₂ ← h₁.setNext last new.node
        pure ⟨h₂, some (table n heads)⟩) := by
  have hlt : strlen k % n < heads.length := by
    rw [hlength]
    exact Nat.mod_lt _ hn
  rw [hashmap_insert]
  dsimp only
  rw [hkey, ok_bind, if_neg (by decide), hidx, ok_bind, list_table hlt,
    ok_bind, hmake, ok_bind, setList_table hlt]
  rfl

/-- **`hashmap_insert` of an absent key** appends its entry. -/
theorem hashmap_insert_absent {k : CString} (hidx : Indexed n k) (r : Represents n h heads es)
    (hk : k ∉ es.map Entry.key) (v : CString) {new : NewBlocks} (a : new.Available h) :
    ∃ h' heads', hashmap_insert ⟨h, some (table n heads)⟩ k v new =
        .ok ⟨h', some (table n heads')⟩ ∧
      Represents n h' heads' (es ++ [new.entry k v]) ∧
      ∀ b, h'.Live b ↔ h.Live b ∨ b ∈ (new.entry k v).blocks := by
  set b := strlen k % n with hb
  have hlt : b < n := Nat.mod_lt _ hn
  have hlt' : b < heads.length := by rw [r.length]; exact hlt
  obtain ⟨h₁, hmake, hnew, hold, hnext₀, hnext, hlive⟩ := a.makeNode k v
  have hne : ∀ x ∈ es, x.node ≠ new.node := fun x hx hc =>
    (r.stored x hx).node_live (by rw [hc]; exact a.node.nodes)
  have hapart : (es ++ [new.entry k v]).Pairwise Entry.Apart := by
    rw [List.pairwise_append]
    refine ⟨r.apart, List.pairwise_singleton _ _, fun x hx y hy => ?_⟩
    rw [List.mem_singleton.mp hy]
    exact a.apart (r.stored x hx) fun hc => hk (List.mem_map.mpr ⟨x, hx, hc⟩)
  have hstored : ∀ x ∈ es ++ [new.entry k v], x.Stored h₁ := by
    intro x hx
    rcases List.mem_append.mp hx with hx | hx
    · exact hold x (r.stored x hx)
    · rw [List.mem_singleton.mp hx]
      exact hnew
  have hzero : hashmap_hasKey ⟨h, some (table n heads)⟩ k = .ok 0 := by
    rw [hashmap_hasKey_eq hn hidx r, if_neg hk]
  rw [hashmap_insert_new hn hidx r.length hzero hmake, ← hb]
  rcases List.eq_nil_or_concat (inBucket n es b) with hempty | ⟨front, x, hsplit⟩
  · -- the bucket is empty: the new node becomes its head
    have hhead : heads.getD b 0 = 0 := by
      have hchain := r.chain b hlt
      rw [hempty] at hchain
      exact hchain
    rw [if_pos hhead]
    exact ⟨h₁, _, rfl, r.link_head hn a.node.ne_null hnext₀ hstored hapart hempty
      fun x hx => hnext _ (hne x hx), hlive⟩
  · -- the new node is linked in behind the last one
    rw [List.concat_eq_append] at hsplit
    have hx : x ∈ es := (mem_inBucket.mp (by
      rw [hsplit]; exact List.mem_append_right _ (List.mem_singleton_self x))).1
    have sx : x.Stored h₁ := hold x (r.stored x hx)
    have hchain : Visits 0 h₁.nextOf (heads.getD b 0) ((front ++ [x]).map Entry.node) := by
      rw [← hsplit]
      refine (r.chain b hlt).congr fun p hp => ?_
      obtain ⟨y, hy, rfl⟩ := List.mem_map.mp hp
      exact hnext _ (hne y (mem_inBucket.mp hy).1)
    have hstored₁ : ∀ y ∈ front ++ [x], y.Stored h₁ := by
      rw [← hsplit]
      exact fun y hy => hold y (r.stored y (mem_inBucket.mp hy).1)
    have hhead : heads.getD b 0 ≠ 0 := by
      rw [Ne, hchain.eq_null_iff, List.map_eq_nil_iff]
      exact List.append_ne_nil_of_right_ne_nil _ (List.cons_ne_nil _ _)
    have hfuel : front.length < addresses := by
      have hlen := r.chain_length_lt hlt
      rw [hsplit, List.length_append] at hlen
      exact Nat.lt_of_add_right_lt hlen
    rw [if_neg hhead, last_loop ⟨hchain, hstored₁⟩ hfuel, ok_bind, sx.setNext_eq, ok_bind]
    refine ⟨_, heads, rfl, r.link_last hn a.node.ne_null ?_
      (fun y hy => (hstored y hy).setNext sx _) hapart hsplit (Heap.nextOf_setNode_self _ _ _)
      fun y hy hyx => ?_, fun b => (Heap.live_setNode_of_live _ sx.node_live _ b).trans (hlive b)⟩
    · show (h₁.setNode x.node _).nextOf new.node = 0
      rw [Heap.nextOf_setNode_of_ne _ (hne x hx).symm, hnext₀]
    · rw [Heap.nextOf_setNode_of_ne _ hyx]
      exact hnext _ (hne y hy)

end Insert

/-! ## Update -/

/-- The entry with a new value in a new buffer, if it is the entry of `k`. -/
def Entry.revalue (k value : CString) (buffer : ℕ) (e : Entry) : Entry :=
  if e.key = k then { e with value := value, valueBuffer := buffer } else e

section Revalue

variable (k v : CString) (p : ℕ) (e : Entry)

@[simp] theorem revalue_key : (e.revalue k v p).key = e.key := by
  rw [Entry.revalue]
  split <;> rfl

@[simp] theorem revalue_node : (e.revalue k v p).node = e.node := by
  rw [Entry.revalue]
  split <;> rfl

@[simp] theorem revalue_pair : (e.revalue k v p).pair = e.pair := by
  rw [Entry.revalue]
  split <;> rfl

@[simp] theorem revalue_keyBuffer : (e.revalue k v p).keyBuffer = e.keyBuffer := by
  rw [Entry.revalue]
  split <;> rfl

theorem revalue_valueBuffer :
    (e.revalue k v p).valueBuffer = if e.key = k then p else e.valueBuffer := by
  rw [Entry.revalue]
  split <;> rfl

/-- Buckets depend on the keys and the nodes only. -/
theorem inBucket_revalue (es : List Entry) (i : ℕ) :
    (inBucket n (es.map (Entry.revalue k v p)) i).map Entry.node =
      (inBucket n es i).map Entry.node := by
  rw [inBucket, inBucket, List.filter_map, List.map_map]
  simp only [Function.comp_def, revalue_key, revalue_node]

end Revalue

/-- A new buffer keeps entries apart. -/
theorem Entry.Apart.revalue {a b : Entry} (hab : a.Apart b) (sa : a.Stored h)
    (sb : b.Stored h) {p : ℕ} (hp : h.Fresh p) (k v : CString) :
    (a.revalue k v p).Apart (b.revalue k v p) := by
  have hkey : ∀ {x : Entry}, x.Stored h → x.keyBuffer ≠ p := fun s hc =>
    s.keyBuffer_live (by rw [hc]; exact hp.buffers)
  have hvalue : ∀ {x : Entry}, x.Stored h → x.valueBuffer ≠ p := fun s hc =>
    s.valueBuffer_live (by rw [hc]; exact hp.buffers)
  refine
    { node := by simpa using hab.node, pair := by simpa using hab.pair,
      keyBuffers := by simpa using hab.keyBuffers, valueBuffers := ?_, keyValue := ?_,
      valueKey := ?_, key := by simpa using hab.key }
  · rw [revalue_valueBuffer, revalue_valueBuffer]
    split
    · rename_i hak
      rw [if_neg fun hbk : b.key = k => hab.key (hak.trans hbk.symm)]
      exact (hvalue sb).symm
    · split
      · exact hvalue sa
      · exact hab.valueBuffers
  · rw [revalue_keyBuffer, revalue_valueBuffer]
    split
    · exact hkey sa
    · exact hab.keyValue
  · rw [revalue_keyBuffer, revalue_valueBuffer]
    split
    · exact (hkey sb).symm
    · exact hab.valueKey

/-- **One entry gets a new value**, in a new buffer, and the old buffer is left to itself. -/
theorem Represents.revalue (r : Represents n h heads es) (he : e ∈ es) (v : CString)
    {newval : ℕ} (a : h.Fresh newval) (hnodes : h'.nodes = h.nodes)
    (hpair : h'.pairs e.pair = some ⟨e.keyBuffer, newval⟩)
    (hpairs : ∀ p, p ≠ e.pair → h'.pairs p = h.pairs p)
    (hvalue : h'.buffers newval = some ⟨pointerSize, some v⟩)
    (hbuffers : ∀ p, p ≠ newval → p ≠ e.valueBuffer → h'.buffers p = h.buffers p) :
    Represents n h' heads (es.map (Entry.revalue e.key v newval)) := by
  have hnewkey : ∀ x ∈ es, x.keyBuffer ≠ newval := fun x hx hc =>
    (r.stored x hx).keyBuffer_live (by rw [hc]; exact a.buffers)
  have hnewvalue : ∀ x ∈ es, x.valueBuffer ≠ newval := fun x hx hc =>
    (r.stored x hx).valueBuffer_live (by rw [hc]; exact a.buffers)
  have s := r.stored e he
  refine { length := r.length, chain := fun i hi => ?_, stored := fun y hy => ?_, apart := ?_ }
  · rw [inBucket_revalue, Heap.nextOf_congr _ hnodes]
    exact r.chain i hi
  · obtain ⟨x, hx, rfl⟩ := List.mem_map.mp hy
    by_cases hkey : x.key = e.key
    · have hxe : x = e := r.eq_of_key hx he hkey
      rw [Entry.revalue, if_pos hkey, hxe]
      exact
        { s with
          node := by rw [hnodes]; exact s.node
          pair := hpair
          key := by rw [hbuffers _ (hnewkey e he) s.buffers_ne, s.key]
          value := by rw [hvalue]; rfl
          buffers_ne := hnewkey e he
          valueBuffer_ne_null := a.ne_null }
    · have hapart : x.Apart e := r.apart_of_ne hx he fun hc => hkey (by rw [hc])
      rw [Entry.revalue, if_neg hkey]
      exact (r.stored x hx).congr (by rw [hnodes]) (hpairs _ hapart.pair)
        (hbuffers _ (hnewkey x hx) hapart.keyValue)
        (hbuffers _ (hnewvalue x hx) hapart.valueBuffers)
  · rw [List.pairwise_map]
    exact r.apart.imp_of_mem fun hx hy hxy =>
      hxy.revalue (r.stored _ hx) (r.stored _ hy) a _ _

section Update

variable (hn : 1 ≤ n)

include hn

theorem hashmap_update_absent {k : CString} (hidx : Indexed n k) (r : Represents n h heads es)
    (hk : k ∉ es.map Entry.key) (v : CString) (newval : ℕ) :
    hashmap_update ⟨h, some (table n heads)⟩ k v newval = .ok ⟨h, some (table n heads)⟩ := by
  rw [hashmap_update]
  dsimp only
  rw [hashmap_hasKey_eq hn hidx r, if_neg hk, ok_bind, if_pos rfl]
  rfl

/-- **`hashmap_update` of a present key** gives its entry a new value. -/
theorem hashmap_update_present (hidx : Indexed n e.key) (r : Represents n h heads es)
    (he : e ∈ es) (v : CString) {newval : ℕ} (a : h.Fresh newval) :
    ∃ h', hashmap_update ⟨h, some (table n heads)⟩ e.key v newval =
        .ok ⟨h', some (table n heads)⟩ ∧
      Represents n h' heads (es.map (Entry.revalue e.key v newval)) ∧
      ∀ b, h'.Live b ↔ (h.Live b ∨ b = .buffer newval) ∧ b ≠ .buffer e.valueBuffer := by
  have hlt' : strlen e.key % n < heads.length := by rw [r.length]; exact Nat.mod_lt _ hn
  have s := r.stored e he
  have hold : e.valueBuffer ≠ newval := fun hc =>
    s.valueBuffer_live (by rw [hc]; exact a.buffers)
  have holdkey : e.keyBuffer ≠ newval := fun hc =>
    s.keyBuffer_live (by rw [hc]; exact a.buffers)
  -- the memory after each statement
  set h₁ := h.mallocBuffer newval pointerSize with hh₁
  have hbuffer : h₁.buffers newval = some ⟨pointerSize, none⟩ := by
    rw [hh₁, Heap.mallocBuffer, Heap.setBuffer_buffers_self]
  set h₂ := h₁.setBuffer newval (some ⟨pointerSize, some v⟩) with hh₂
  have hkept : ∀ p, p ≠ newval → h₂.buffers p = h.buffers p := by
    intro p hp
    rw [hh₂, Heap.setBuffer_buffers_of_ne _ hp, hh₁, Heap.mallocBuffer,
      Heap.setBuffer_buffers_of_ne _ hp]
  have s₂ : e.Stored h₂ := s.congr rfl rfl (hkept _ holdkey) (hkept _ hold)
  set h₃ := h₂.setPair e.pair (some ⟨e.keyBuffer, newval⟩) with hh₃
  have hlive : h₃.buffers e.valueBuffer ≠ none := by
    rw [hh₃, Heap.setPair_buffers]
    exact s₂.valueBuffer_live
  set h₄ := h₃.setBuffer e.valueBuffer none with hh₄
  refine ⟨h₄, ?_, r.revalue he v a rfl (Heap.setPair_pairs_self _ _ _)
    (fun p hp => h₂.setPair_pairs_of_ne hp _) ?_ (fun p hp hp' => ?_), fun b => ?_⟩
  · rw [hashmap_update]
    dsimp only
    rw [hashmap_hasKey_eq hn hidx r, if_pos (List.mem_map_of_mem he), ok_bind,
      if_neg (by decide), hidx, ok_bind, list_table hlt', ok_bind,
      r.find hn he, ok_bind, ← hh₁, Heap.strcpy_eq _ hbuffer, ok_bind]
    dsimp only
    rw [← hh₂, s₂.node_eq, ok_bind]
    dsimp only
    rw [s₂.pair_eq, ok_bind, Heap.setValue, s₂.pair_eq, ok_bind, pure_eq_ok, ok_bind]
    dsimp only
    rw [← hh₃, Heap.freeBuffer_eq _ s.valueBuffer_ne_null hlive, ok_bind]
    rfl
  · rw [hh₄, Heap.setBuffer_buffers_of_ne _ hold.symm, hh₃, Heap.setPair_buffers, hh₂,
      Heap.setBuffer_buffers_self]
  · rw [hh₄, Heap.setBuffer_buffers_of_ne _ hp', hh₃, Heap.setPair_buffers, hkept p hp]
  · have hpair : h.Live (.pair e.pair) := s.pair_live
    rw [hh₄, Heap.live_setBuffer_none, hh₃, Heap.live_setPair_some, hh₂,
      Heap.live_setBuffer_some, hh₁, Heap.mallocBuffer, Heap.live_setBuffer_some]
    refine and_congr_left fun _ => ?_
    constructor
    · rintro ((h | h) | rfl)
      · exact h
      · exact Or.inr h
      · exact Or.inl hpair
    · exact fun h => Or.inl (Or.inl h)

end Update

/-! ## Removal -/

/-- **The four calls of `free`** release the blocks of an entry and no other. -/
theorem Entry.Stored.freeEntry (s : e.Stored h) (hne : e.node ≠ 0) :
    ∃ h', MyHashmap.freeEntry h e.node = .ok h' ∧
      (∀ p, p ≠ e.node → h'.nextOf p = h.nextOf p) ∧
      (∀ x : Entry, x.Stored h → x.Apart e → x.Stored h') ∧
      ∀ b, h'.Live b ↔ h.Live b ∧ b ∉ e.blocks := by
  set h₁ := h.setBuffer e.keyBuffer none with hh₁
  set h₂ := h₁.setBuffer e.valueBuffer none with hh₂
  set h₃ := h₂.setPair e.pair none with hh₃
  have hlive : h₁.buffers e.valueBuffer ≠ none := by
    rw [hh₁, Heap.setBuffer_buffers_of_ne _ s.buffers_ne.symm]
    exact s.valueBuffer_live
  -- the node and the pair are read again after each call
  have hnode : ∀ g : Heap, g.nodes = h.nodes → g.node e.node = h.node e.node := by
    intro g hg
    rw [Heap.node, Heap.node, hg]
  have hpair : ∀ g : Heap, g.pairs = h.pairs → g.pair e.pair = h.pair e.pair := by
    intro g hg
    rw [Heap.pair, Heap.pair, hg]
  refine ⟨h₃.setNode e.node none, ?_, fun p hp => ?_, fun x sx hx => ?_, fun b => ?_⟩
  · rw [MyHashmap.freeEntry, s.node_eq, ok_bind]
    dsimp only
    rw [s.pair_eq, ok_bind, Heap.freeBuffer_eq _ s.keyBuffer_ne_null s.keyBuffer_live, ok_bind,
      ← hh₁, hnode h₁ rfl, s.node_eq, ok_bind]
    dsimp only
    rw [hpair h₁ rfl, s.pair_eq, ok_bind, Heap.freeBuffer_eq _ s.valueBuffer_ne_null hlive,
      ok_bind, ← hh₂, hnode h₂ rfl, s.node_eq, ok_bind]
    dsimp only
    rw [Heap.freePair_eq h₂ s.pair_ne_null s.pair_live, ok_bind, ← hh₃,
      Heap.freeNode_eq h₃ hne s.node_live]
  · rw [Heap.nextOf_setNode_of_ne _ hp]
    exact congrFun (Heap.nextOf_congr _ rfl) p
  · refine sx.congr ?_ ?_ ?_ ?_
    · rw [Heap.setNode_nodes_of_ne _ hx.node]
      rfl
    · exact h₂.setPair_pairs_of_ne hx.pair _
    · show h₂.buffers x.keyBuffer = _
      rw [hh₂, Heap.setBuffer_buffers_of_ne _ hx.keyValue, hh₁,
        Heap.setBuffer_buffers_of_ne _ hx.keyBuffers]
    · show h₂.buffers x.valueBuffer = _
      rw [hh₂, Heap.setBuffer_buffers_of_ne _ hx.valueBuffers, hh₁,
        Heap.setBuffer_buffers_of_ne _ hx.valueKey]
  · rw [Heap.live_setNode_none, hh₃, Heap.live_setPair_none, hh₂, Heap.live_setBuffer_none,
      hh₁, Heap.live_setBuffer_none]
    simp only [Entry.blocks, List.mem_cons, List.not_mem_nil, or_false, not_or]
    tauto

/-- The entries of all keys but `k`. -/
def without (k : CString) (es : List Entry) : List Entry := es.filter fun e => e.key ≠ k

theorem mem_without {k : CString} {x : Entry} : x ∈ without k es ↔ x ∈ es ∧ x.key ≠ k := by
  rw [without, List.mem_filter, decide_eq_true_iff]

/-- Another bucket has no entry of `k`. -/
theorem inBucket_without_of_ne {k : CString} {i : ℕ} (hi : i ≠ strlen k % n)
    (es : List Entry) : inBucket n (without k es) i = inBucket n es i := by
  rw [without, inBucket, List.filter_filter, inBucket]
  refine List.filter_congr fun x _ => ?_
  by_cases hx : strlen x.key % n = i
  · have hxk : x.key ≠ k := fun hc => hi (by rw [← hx, hc])
    simp [hx, hxk]
  · simp [hx]

/-- The bucket of `k` loses one entry. -/
theorem Represents.inBucket_without (r : Represents n h heads es) {front rest : List Entry}
    (hsplit : inBucket n es (strlen e.key % n) = front ++ e :: rest) :
    inBucket n (without e.key es) (strlen e.key % n) = front ++ rest := by
  have hcomm : inBucket n (without e.key es) (strlen e.key % n) =
      without e.key (inBucket n es (strlen e.key % n)) := by
    rw [inBucket, without, List.filter_comm, inBucket, without]
  have hpairwise : (front ++ e :: rest).Pairwise Entry.Apart := by
    rw [← hsplit]
    exact r.apart.sublist List.filter_sublist
  have hkeep : ∀ l : List Entry, (∀ x ∈ l, x.Apart e) → without e.key l = l := fun l hl =>
    List.filter_eq_self.mpr fun x hx => decide_eq_true (hl x hx).key
  obtain ⟨-, hrest, hfront⟩ := List.pairwise_append.mp hpairwise
  rw [hcomm, hsplit]
  show without e.key (front ++ e :: rest) = _
  rw [without, List.filter_append, List.filter_cons_of_neg (by simp)]
  show without e.key front ++ without e.key rest = _
  rw [hkeep front fun x hx => hfront x hx e List.mem_cons_self,
    hkeep rest fun x hx => (List.rel_of_pairwise_cons hrest hx).symm]

/-- **The head of a chain is unlinked**: the second node is the new head. -/
theorem Represents.unlink_head (r : Represents n h heads es) (hn : 1 ≤ n) {l : List Entry}
    (hsplit : inBucket n es (strlen e.key % n) = e :: l)
    (hnext : ∀ p, p ≠ e.node → h'.nextOf p = h.nextOf p)
    (hstored : ∀ x ∈ without e.key es, x.Stored h') :
    Represents n h' (heads.set (strlen e.key % n) (h.nextOf e.node)) (without e.key es) := by
  have hlt : strlen e.key % n < n := Nat.mod_lt _ hn
  have heb : e ∈ inBucket n es (strlen e.key % n) := by
    rw [hsplit]
    exact List.mem_cons_self
  have hchain := r.chainOf hlt
  rw [hsplit] at hchain
  refine r.of_bucket (b := strlen e.key % n) ?_ ?_ ?_ ?_ ?_ hstored
    (r.apart.sublist List.filter_sublist)
  · rw [List.length_set, r.length]
  · exact fun i hi => getD_set_of_ne heads hi _
  · exact fun i hi => inBucket_without_of_ne hi es
  · exact fun i hi y hy => hnext _ (r.nodes_ne hi hy heb)
  · have hrest : inBucket n (without e.key es) (strlen e.key % n) = [] ++ l :=
      r.inBucket_without hsplit
    rw [getD_set_self (by rw [r.length]; exact hlt), hrest, List.nil_append]
    refine hchain.tail.visits.congr fun p hp => hnext p fun hc => ?_
    have hnodup := hchain.visits.nodup
    rw [List.map_cons, List.nodup_cons] at hnodup
    exact hnodup.1 (hc ▸ hp)

/-- **A later node is unlinked**: the node in front of it gets its link. -/
theorem Represents.unlink_later (r : Represents n h heads es) (hn : 1 ≤ n)
    {front rest : List Entry} {y : Entry}
    (hsplit : inBucket n es (strlen e.key % n) = front ++ y :: e :: rest)
    (hlink : h'.nextOf y.node = h.nextOf e.node)
    (hnext : ∀ p, p ≠ y.node → p ≠ e.node → h'.nextOf p = h.nextOf p)
    (hstored : ∀ x ∈ without e.key es, x.Stored h') :
    Represents n h' heads (without e.key es) := by
  have hyb : y ∈ inBucket n es (strlen e.key % n) := by
    rw [hsplit]
    exact List.mem_append_right _ List.mem_cons_self
  have heb : e ∈ inBucket n es (strlen e.key % n) := by
    rw [hsplit]
    exact List.mem_append_right _ (List.mem_cons_of_mem _ List.mem_cons_self)
  have hvisits : Visits 0 h.nextOf (heads.getD (strlen e.key % n) 0)
      (front.map Entry.node ++ y.node :: e.node :: rest.map Entry.node) := by
    have hv := r.chain _ (Nat.mod_lt (strlen e.key) hn)
    rw [hsplit, List.map_append, List.map_cons, List.map_cons] at hv
    exact hv
  have hnodup := hvisits.nodup
  rw [List.nodup_append, List.nodup_cons, List.nodup_cons, List.mem_cons, not_or] at hnodup
  obtain ⟨-, ⟨⟨-, hyrest⟩, herest, -⟩, hfront⟩ := hnodup
  refine r.of_bucket (b := strlen e.key % n) r.length (fun _ _ => rfl) ?_ ?_ ?_ hstored
    (r.apart.sublist List.filter_sublist)
  · exact fun i hi => inBucket_without_of_ne hi es
  · exact fun i hi z hz => hnext _ (r.nodes_ne hi hz hyb) (r.nodes_ne hi hz heb)
  · have hrest : inBucket n (without e.key es) (strlen e.key % n) = (front ++ [y]) ++ rest := by
      refine r.inBucket_without ?_
      rw [hsplit, List.append_assoc]
      rfl
    rw [hrest, List.append_assoc, List.map_append, List.singleton_append, List.map_cons]
    refine hvisits.unlink hlink (fun p hp => ?_) fun p hp => ?_
    · exact hnext p (hfront p hp _ List.mem_cons_self)
        (hfront p hp _ (List.mem_cons_of_mem _ List.mem_cons_self))
    · exact hnext p (fun hc => hyrest (hc ▸ hp)) fun hc => herest (hc ▸ hp)

section Remove

variable (hn : 1 ≤ n)

include hn

theorem hashmap_removeKey_absent {k : CString} (hidx : Indexed n k)
    (r : Represents n h heads es) (hk : k ∉ es.map Entry.key) :
    hashmap_removeKey ⟨h, some (table n heads)⟩ k = .ok ⟨h, some (table n heads)⟩ := by
  rw [hashmap_removeKey]
  dsimp only
  rw [hashmap_hasKey_eq hn hidx r, if_neg hk, ok_bind, if_pos rfl]
  rfl

/-- **`hashmap_removeKey` of a present key** drops its entry. -/
theorem hashmap_removeKey_present (hidx : Indexed n e.key) (r : Represents n h heads es)
    (he : e ∈ es) :
    ∃ h' heads', hashmap_removeKey ⟨h, some (table n heads)⟩ e.key =
        .ok ⟨h', some (table n heads')⟩ ∧
      Represents n h' heads' (without e.key es) ∧
      ∀ b, h'.Live b ↔ h.Live b ∧ b ∉ e.blocks := by
  set b := strlen e.key % n with hb
  have hlt : b < n := Nat.mod_lt _ hn
  have hlt' : b < heads.length := by rw [r.length]; exact hlt
  have s := r.stored e he
  have heb : e ∈ inBucket n es b := mem_inBucket.mpr ⟨he, rfl⟩
  have hchain := r.chainOf hlt
  have hlen := r.chain_length_lt hlt
  have hne : e.node ≠ 0 := hchain.visits.ne_null (List.mem_map_of_mem heb)
  have honly : ∀ x ∈ inBucket n es b, x.key = e.key → x = e := fun x hx hkey =>
    r.eq_of_key (mem_inBucket.mp hx).1 he hkey
  have haway : ∀ x ∈ without e.key es, x.Stored h ∧ x.Apart e := by
    intro x hx
    obtain ⟨hx, hkey⟩ := mem_without.mp hx
    exact ⟨r.stored x hx, r.apart_of_ne hx he fun hc => hkey (by rw [hc])⟩
  rw [hashmap_removeKey]
  dsimp only
  rw [hashmap_hasKey_eq hn hidx r, if_pos (List.mem_map_of_mem he), ok_bind,
    if_neg (by decide), hidx, ok_bind, ← hb, list_table hlt', ok_bind]
  obtain ⟨x, l, hsplit⟩ : ∃ x l, inBucket n es b = x :: l :=
    List.exists_cons_of_ne_nil (List.ne_nil_of_mem heb)
  rw [hsplit] at hchain heb honly hlen
  rw [hchain.head, hchain.head_stored.nodeKey_eq, ok_bind]
  by_cases hxk : x.key = e.key
  · -- the head of the chain
    have hxe : x = e := honly x List.mem_cons_self hxk
    rw [hxe] at hsplit ⊢
    obtain ⟨h', hfree, hnext, hstored, hlive⟩ := s.freeEntry hne
    rw [if_pos (strcmp_eq_zero_iff.mpr rfl), ok_bind, s.node_eq, ok_bind, setList_table hlt',
      ok_bind, hfree, ok_bind]
    exact ⟨h', _, rfl,
      r.unlink_head hn hsplit hnext fun y hy => hstored y (haway y hy).1 (haway y hy).2, hlive⟩
  · -- a later node: the one in front of it gets its link
    have hel : e ∈ l := (List.mem_cons.mp heb).resolve_left fun hc => hxk (by rw [hc])
    obtain ⟨front, y, rest, hsplit', hloop⟩ := remove_loop hchain
      (Nat.lt_of_succ_lt hlen) hel fun z hz => honly z (List.mem_cons_of_mem x hz)
    rw [hsplit'] at hsplit
    have hpairwise : (front ++ y :: e :: rest).Pairwise Entry.Apart := by
      rw [← hsplit]
      exact r.apart.sublist List.filter_sublist
    have hye : y.Apart e :=
      List.rel_of_pairwise_cons (List.pairwise_append.mp hpairwise).2.1 List.mem_cons_self
    have hyb : y ∈ inBucket n es b := by
      rw [hsplit]
      exact List.mem_append_right _ List.mem_cons_self
    have sy : y.Stored h := r.stored y (mem_inBucket.mp hyb).1
    set h₁ := h.setNode y.node (some ⟨h.nextOf e.node, y.pair⟩) with hh₁
    have s₁ : e.Stored h₁ := s.setNext sy _
    obtain ⟨h', hfree, hnext, hstored, hlive⟩ := s₁.freeEntry hne
    rw [if_neg fun hc => hxk (strcmp_eq_zero_iff.mp hc), hchain.head_stored.node_eq, ok_bind,
      hloop, ok_bind]
    dsimp only
    rw [s.node_eq, ok_bind, sy.setNext_eq, ok_bind, ← hh₁, hfree, ok_bind]
    refine ⟨h', heads, rfl, r.unlink_later hn hsplit ?_ (fun p hpy hpe => ?_) fun z hz => ?_,
      fun c => (hlive c).trans (and_congr_left fun _ =>
        Heap.live_setNode_of_live _ sy.node_live _ c)⟩
    · rw [hnext _ hye.node, hh₁, Heap.nextOf_setNode_self]
    · rw [hnext p hpe, hh₁, Heap.nextOf_setNode_of_ne _ hpy]
    · exact hstored z ((haway z hz).1.setNext sy _) (haway z hz).2

end Remove

/-! ## The blocks of all entries -/

/-- The blocks of all the entries. -/
def blocksOf (es : List Entry) : List Block := es.flatMap Entry.blocks

theorem mem_blocksOf {b : Block} : b ∈ blocksOf es ↔ ∃ e ∈ es, b ∈ e.blocks := List.mem_flatMap

theorem blocksOf_append (es es' : List Entry) :
    blocksOf (es ++ es') = blocksOf es ++ blocksOf es' :=
  List.flatMap_append

theorem blocksOf_singleton (e : Entry) : blocksOf [e] = e.blocks := List.flatMap_singleton ..

/-- Entries that are apart have no block in common. -/
theorem Entry.Apart.blocks {e' : Entry} (ha : e.Apart e') {b : Block} (hb : b ∈ e.blocks) :
    b ∉ e'.blocks := by
  simp only [Entry.blocks, List.mem_cons, List.not_mem_nil, or_false] at hb ⊢
  rcases hb with rfl | rfl | rfl | rfl
  · simpa using ha.node
  · simpa using ha.pair
  · simpa using ⟨ha.keyBuffers, ha.keyValue⟩
  · simpa using ⟨ha.valueKey, ha.valueBuffers⟩

theorem Entry.Stored.live (s : e.Stored h) {b : Block} (hb : b ∈ e.blocks) : h.Live b := by
  simp only [Entry.blocks, List.mem_cons, List.not_mem_nil, or_false] at hb
  rcases hb with rfl | rfl | rfl | rfl
  · exact s.node_live
  · exact s.pair_live
  · exact s.keyBuffer_live
  · exact s.valueBuffer_live

theorem NewBlocks.Available.not_live {new : NewBlocks} (a : new.Available h) {k v : CString}
    {b : Block} (hb : b ∈ (new.entry k v).blocks) : ¬ h.Live b := by
  simp only [Entry.blocks, NewBlocks.entry, List.mem_cons, List.not_mem_nil, or_false] at hb
  rcases hb with rfl | rfl | rfl | rfl
  · exact a.node.not_live.1
  · exact a.pair.not_live.2.1
  · exact a.key.not_live.2.2
  · exact a.value.not_live.2.2

theorem Represents.live (r : Represents n h heads es) {b : Block} (hb : b ∈ blocksOf es) :
    h.Live b := by
  obtain ⟨e, he, hb⟩ := mem_blocksOf.mp hb
  exact (r.stored e he).live hb

/-- A block has one entry. -/
theorem Represents.eq_of_block (r : Represents n h heads es) {e' : Entry} (he : e ∈ es)
    (he' : e' ∈ es) {b : Block} (hb : b ∈ e.blocks) (hb' : b ∈ e'.blocks) : e = e' := by
  by_contra hne
  exact (r.apart_of_ne he he' hne).blocks hb hb'

/-- The value's buffer of one entry is exchanged. -/
theorem Represents.mem_blocksOf_revalue (r : Represents n h heads es) (he : e ∈ es)
    (v : CString) (p : ℕ) (b : Block) :
    b ∈ blocksOf (es.map (Entry.revalue e.key v p)) ↔
      (b ∈ blocksOf es ∧ b ≠ .buffer e.valueBuffer) ∨ b = .buffer p := by
  have s := r.stored e he
  have hself : e.revalue e.key v p = ⟨e.node, e.pair, e.keyBuffer, p, e.key, v⟩ := by
    rw [Entry.revalue, if_pos rfl]
  have hother : ∀ x ∈ es, x ≠ e → x.revalue e.key v p = x := fun x hx hne =>
    if_neg fun hc => hne (r.eq_of_key hx he hc)
  have hvalue : Block.buffer e.valueBuffer ∈ e.blocks := by simp [Entry.blocks]
  rw [mem_blocksOf, mem_blocksOf]
  constructor
  · rintro ⟨y, hy, hb⟩
    obtain ⟨x, hx, rfl⟩ := List.mem_map.mp hy
    by_cases hxe : x = e
    · rw [hxe, hself] at hb
      simp only [Entry.blocks, List.mem_cons, List.not_mem_nil, or_false] at hb
      rcases hb with rfl | rfl | rfl | rfl
      · exact Or.inl ⟨⟨e, he, by simp [Entry.blocks]⟩, by simp⟩
      · exact Or.inl ⟨⟨e, he, by simp [Entry.blocks]⟩, by simp⟩
      · exact Or.inl ⟨⟨e, he, by simp [Entry.blocks]⟩, by simpa using s.buffers_ne⟩
      · exact Or.inr rfl
    · rw [hother x hx hxe] at hb
      exact Or.inl ⟨⟨x, hx, hb⟩, fun hc => hxe (r.eq_of_block hx he hb (hc ▸ hvalue))⟩
  · rintro (⟨⟨x, hx, hb⟩, hne⟩ | rfl)
    · refine ⟨_, List.mem_map_of_mem hx, ?_⟩
      by_cases hxe : x = e
      · rw [hxe] at hb ⊢
        rw [hself]
        simp only [Entry.blocks, List.mem_cons, List.not_mem_nil, or_false] at hb ⊢
        tauto
      · rw [hother x hx hxe]
        exact hb
    · refine ⟨_, List.mem_map_of_mem he, ?_⟩
      rw [hself]
      simp [Entry.blocks]

/-- The blocks of one entry are given back. -/
theorem Represents.mem_blocksOf_without (r : Represents n h heads es) (he : e ∈ es)
    (b : Block) : b ∈ blocksOf (without e.key es) ↔ b ∈ blocksOf es ∧ b ∉ e.blocks := by
  rw [mem_blocksOf, mem_blocksOf]
  constructor
  · rintro ⟨x, hx, hb⟩
    obtain ⟨hx, hkey⟩ := mem_without.mp hx
    exact ⟨⟨x, hx, hb⟩, fun hc => hkey (by rw [r.eq_of_block hx he hb hc])⟩
  · rintro ⟨⟨x, hx, hb⟩, hne⟩
    exact ⟨x, mem_without.mpr ⟨hx, fun hc => hne (r.eq_of_key hx he hc ▸ hb)⟩, hb⟩

theorem map_revalue_of_notMem {k : CString} (hk : k ∉ es.map Entry.key) (v : CString) (p : ℕ) :
    es.map (Entry.revalue k v p) = es := by
  conv_rhs => rw [← List.map_id es]
  exact List.map_congr_left fun e he => if_neg fun hc => hk (List.mem_map.mpr ⟨e, he, hc⟩)

theorem without_of_notMem {k : CString} (hk : k ∉ es.map Entry.key) : without k es = es :=
  List.filter_eq_self.mpr fun e he =>
    decide_eq_true fun hc => hk (List.mem_map.mpr ⟨e, he, hc⟩)

end MyHashmap
end SystemsProjects

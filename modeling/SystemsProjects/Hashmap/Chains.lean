import SystemsProjects.Hashmap.Operations

/-!
# What a hashmap stores

The contents of a hashmap are a list of entries in the order of their insertion,
each with the addresses of its four blocks.  `Represents` says how the memory holds
such a list:

* bucket `i` is a chain through the nodes of the entries whose key has hash `i`, in
  the order of the list;
* the blocks of each entry hold what the entry says;
* two entries share no block and no key.

Under it every loop of the source ends with the right answer, and none of them
runs off its chain.  This module treats the loops and the operations that only
read.
-/

namespace SystemsProjects
namespace MyHashmap

open Lib

/-- An entry of the map with the addresses of its blocks. -/
structure Entry where
  node : ℕ
  pair : ℕ
  keyBuffer : ℕ
  valueBuffer : ℕ
  key : CString
  value : CString

/-- The blocks of the entry hold its strings. -/
structure Entry.Stored (h : Heap) (e : Entry) : Prop where
  node : (h.nodes e.node).map Node.kv = some e.pair
  pair : h.pairs e.pair = some ⟨e.keyBuffer, e.valueBuffer⟩
  key : (h.buffers e.keyBuffer).bind Buffer.contents = some e.key
  value : (h.buffers e.valueBuffer).bind Buffer.contents = some e.value
  buffers_ne : e.keyBuffer ≠ e.valueBuffer
  pair_ne_null : e.pair ≠ 0
  keyBuffer_ne_null : e.keyBuffer ≠ 0
  valueBuffer_ne_null : e.valueBuffer ≠ 0
  node_lt : e.node < 2 ^ 64

/-- Two entries share no block and no key. -/
structure Entry.Apart (e e' : Entry) : Prop where
  node : e.node ≠ e'.node
  pair : e.pair ≠ e'.pair
  keyBuffers : e.keyBuffer ≠ e'.keyBuffer
  valueBuffers : e.valueBuffer ≠ e'.valueBuffer
  keyValue : e.keyBuffer ≠ e'.valueBuffer
  valueKey : e.valueBuffer ≠ e'.keyBuffer
  key : e.key ≠ e'.key

theorem Entry.Apart.symm {e e' : Entry} (h : e.Apart e') : e'.Apart e where
  node := h.node.symm
  pair := h.pair.symm
  keyBuffers := h.keyBuffers.symm
  valueBuffers := h.valueBuffers.symm
  keyValue := h.valueKey.symm
  valueKey := h.keyValue.symm
  key := h.key.symm

instance : Std.Symm Entry.Apart := ⟨fun _ _ h => h.symm⟩

/-- The entries of bucket `i` out of `n`. -/
def inBucket (n : ℕ) (es : List Entry) (i : ℕ) : List Entry :=
  es.filter fun e => strlen e.key % n = i

theorem mem_inBucket {n i : ℕ} {es : List Entry} {e : Entry} :
    e ∈ inBucket n es i ↔ e ∈ es ∧ strlen e.key % n = i := by
  rw [inBucket, List.mem_filter, decide_eq_true_iff]

/-- A map with the given bucket heads, hashed by `stringHash`. -/
def table (n : ℕ) (heads : List ℕ) : Hashmap := ⟨n, heads, stringHash⟩

/-- **The memory holds the entries `es`**, with `heads` the heads of `n` buckets. -/
structure Represents (n : ℕ) (h : Heap) (heads : List ℕ) (es : List Entry) : Prop where
  length : heads.length = n
  chain : ∀ i, i < n →
    Visits 0 h.nextOf (heads.getD i 0) ((inBucket n es i).map Entry.node)
  stored : ∀ e ∈ es, e.Stored h
  apart : es.Pairwise Entry.Apart

variable {n : ℕ} {h : Heap} {heads : List ℕ} {es : List Entry} {e : Entry} {k : CString}

theorem Represents.apart_of_ne (r : Represents n h heads es) {e' : Entry} (he : e ∈ es)
    (he' : e' ∈ es) (hne : e ≠ e') : e.Apart e' :=
  r.apart.forall he he' hne

/-- A key has one entry. -/
theorem Represents.eq_of_key (r : Represents n h heads es) {e' : Entry} (he : e ∈ es)
    (he' : e' ∈ es) (hkey : e.key = e'.key) : e = e' := by
  by_contra hne
  exact (r.apart_of_ne he he' hne).key hkey

theorem Represents.chain_length_lt (r : Represents n h heads es) {i : ℕ} (hi : i < n) :
    (inBucket n es i).length < addresses := by
  have hlt : ∀ a ∈ (inBucket n es i).map Entry.node, a < addresses := by
    intro a ha
    obtain ⟨e, he, rfl⟩ := List.mem_map.mp ha
    exact (r.stored e (mem_inBucket.mp he).1).node_lt
  rw [← List.length_map (f := Entry.node)]
  exact (r.chain i hi).length_lt hlt (by decide)

/-! ## The arithmetic of the buckets -/

section Buckets

variable (hn : 1 ≤ n) (hmax : n ≤ 2 ^ 31 - 1)

include hn hmax

theorem bucketOf_table (heads : List ℕ) (k : CString) :
    (table n heads).bucketOf k = .ok ((strlen k % n : ℕ) : ℤ) := by
  have hlt : strlen k % n < n := Nat.mod_lt _ hn
  have hcount : toInt32 (n : ℤ) = n := toInt32_of_range (by omega) (by omega)
  have hsize : toUInt64 (n : ℤ) = n := toUInt64_of_range (by omega) (by omega)
  have hmod : ((strlen k : ℤ) % n) = ((strlen k % n : ℕ) : ℤ) := (Int.natCast_emod _ _).symm
  have hrem : toInt32 ((strlen k % n : ℕ) : ℤ) = ((strlen k % n : ℕ) : ℤ) :=
    toInt32_of_range (by omega) (by omega)
  rw [Hashmap.bucketOf, table]
  dsimp only
  rw [hcount, stringHash, hsize, if_neg (by omega), hmod, hrem]
  rfl

end Buckets

/-- The conversions of `stringHash` leave the bucket of the key alone. -/
def Indexed (n : ℕ) (k : CString) : Prop :=
  ∀ heads, (table n heads).bucketOf k = .ok ((strlen k % n : ℕ) : ℤ)

theorem indexed_of_le (hn : 1 ≤ n) (hmax : n ≤ 2 ^ 31 - 1) (k : CString) : Indexed n k :=
  fun heads => bucketOf_table hn hmax heads k

theorem list_table {i : ℕ} (hi : i < heads.length) :
    (table n heads).list i = .ok (heads.getD i 0) := by
  rw [Hashmap.list, if_pos ⟨by omega, by exact_mod_cast hi⟩]
  rfl

/-- The heads of a map that is empty. -/
theorem getD_replicate_zero (n i : ℕ) : (List.replicate n 0).getD i 0 = 0 := by
  rw [List.getD_eq_getElem?_getD, List.getElem?_replicate]
  split <;> rfl

theorem setList_table {i : ℕ} (hi : i < heads.length) (p : ℕ) :
    (table n heads).setList i p = .ok (table n (heads.set i p)) := by
  rw [Hashmap.setList, if_pos ⟨by omega, by exact_mod_cast hi⟩]
  rfl

/-! ## Reading the blocks of an entry -/

namespace Entry.Stored

theorem node_eq (s : e.Stored h) : h.node e.node = .ok ⟨h.nextOf e.node, e.pair⟩ := by
  obtain ⟨⟨next, kv⟩, hnode, hkv⟩ := Option.map_eq_some_iff.mp s.node
  have hkv' : kv = e.pair := hkv
  rw [Heap.node, Heap.nextOf, hnode, hkv']
  rfl

theorem pair_eq (s : e.Stored h) : h.pair e.pair = .ok ⟨e.keyBuffer, e.valueBuffer⟩ := by
  rw [Heap.pair, s.pair]
  rfl

theorem string_of_contents {p : ℕ} {t : CString}
    (hp : (h.buffers p).bind Buffer.contents = some t) : h.string p = .ok t := by
  obtain ⟨b, hb, ht⟩ := Option.bind_eq_some_iff.mp hp
  rw [Heap.string, hb]
  dsimp only
  rw [ht]
  rfl

theorem nodeKey_eq (s : e.Stored h) : h.nodeKey e.node = .ok e.key := by
  rw [Heap.nodeKey, s.node_eq, ok_bind, s.pair_eq, ok_bind]
  exact string_of_contents s.key

theorem nodeValue_eq (s : e.Stored h) : h.nodeValue e.node = .ok e.value := by
  rw [Heap.nodeValue, s.node_eq, ok_bind, s.pair_eq, ok_bind]
  exact string_of_contents s.value

/-- What an entry stores depends on its own blocks only. -/
theorem congr {h' : Heap} (s : e.Stored h)
    (hnode : (h'.nodes e.node).map Node.kv = (h.nodes e.node).map Node.kv)
    (hpair : h'.pairs e.pair = h.pairs e.pair)
    (hkey : h'.buffers e.keyBuffer = h.buffers e.keyBuffer)
    (hvalue : h'.buffers e.valueBuffer = h.buffers e.valueBuffer) : e.Stored h' :=
  { s with
    node := by rw [hnode, s.node]
    pair := by rw [hpair, s.pair]
    key := by rw [hkey, s.key]
    value := by rw [hvalue, s.value] }

end Entry.Stored

/-! ## The loops -/

section Loops

variable {p fuel : ℕ} {l : List Entry}

/-- A chain through the nodes of stored entries. -/
structure Chain (h : Heap) (p : ℕ) (l : List Entry) : Prop where
  visits : Visits 0 h.nextOf p (l.map Entry.node)
  stored : ∀ e ∈ l, e.Stored h

theorem Chain.head (c : Chain h p (e :: l)) : p = e.node := c.visits.1

theorem Chain.head_ne_null (c : Chain h p (e :: l)) : e.node ≠ 0 := c.visits.2.1

theorem Chain.head_stored (c : Chain h p (e :: l)) : e.Stored h :=
  c.stored e List.mem_cons_self

theorem Chain.tail (c : Chain h p (e :: l)) : Chain h (h.nextOf e.node) l where
  visits := c.visits.2.2
  stored e' he' := c.stored e' (List.mem_cons_of_mem e he')

/-- A chain through nodes whose keys can be read, and the keys. -/
structure KeyChain (h : Heap) (p : ℕ) (l : List (ℕ × CString)) : Prop where
  visits : Visits 0 h.nextOf p (l.map Prod.fst)
  key : ∀ x ∈ l, h.nodeKey x.1 = .ok x.2

namespace KeyChain

variable {x : ℕ × CString} {l : List (ℕ × CString)}

theorem head (c : KeyChain h p (x :: l)) : p = x.1 := c.visits.1

theorem head_ne_null (c : KeyChain h p (x :: l)) : x.1 ≠ 0 := c.visits.2.1

theorem head_key (c : KeyChain h p (x :: l)) : h.nodeKey x.1 = .ok x.2 :=
  c.key x List.mem_cons_self

theorem tail (c : KeyChain h p (x :: l)) : KeyChain h (h.nextOf x.1) l where
  visits := c.visits.2.2
  key y hy := c.key y (List.mem_cons_of_mem x hy)

end KeyChain

theorem Chain.keyChain (c : Chain h p l) : KeyChain h p (l.map fun e => (e.node, e.key)) where
  visits := by
    rw [List.map_map]
    exact c.visits
  key x hx := by
    obtain ⟨e, he, rfl⟩ := List.mem_map.mp hx
    exact (c.stored e he).nodeKey_eq

theorem Represents.chainOf (r : Represents n h heads es) {i : ℕ} (hi : i < n) :
    Chain h (heads.getD i 0) (inBucket n es i) where
  visits := r.chain i hi
  stored e he := r.stored e (mem_inBucket.mp he).1

/-- The test of `hashmap_hasKey` at a node whose key is read. -/
theorem hasKeyBody_eq {key : CString} (hne : p ≠ 0) (hkey : h.nodeKey p = .ok key)
    (k : CString) :
    hasKeyBody h k p = .ok (if key = k then .inr 1 else .inl (h.nextOf p)) := by
  obtain ⟨kv, hnode⟩ := h.node_of_nodeKey hkey
  rw [hasKeyBody, if_neg hne, hkey, ok_bind]
  by_cases hk : key = k
  · rw [if_pos (strcmp_eq_zero_iff.mpr hk), if_pos hk]
    rfl
  · rw [if_neg fun hc => hk (strcmp_eq_zero_iff.mp hc), if_neg hk, hnode, ok_bind]
    rfl

/-- **The loop of `hashmap_hasKey`** finds a key exactly if it is on the chain. -/
theorem KeyChain.hasKey_loop {l : List (ℕ × CString)} (c : KeyChain h p l)
    (hfuel : l.length < fuel) (k : CString) :
    loop .diverges (hasKeyBody h k) fuel p =
      .ok (if k ∈ l.map Prod.snd then 1 else 0) := by
  suffices hloop : ∃ b, loop .diverges (hasKeyBody h k) fuel p = .ok b ∧
      b = if k ∈ l.map Prod.snd then 1 else 0 by
    obtain ⟨b, hb, rfl⟩ := hloop
    exact hb
  refine loop_spec
    (I := fun l' p' => KeyChain h p' l' ∧ (k ∈ l.map Prod.snd ↔ k ∈ l'.map Prod.snd))
    ?_ ?_ ⟨c, Iff.rfl⟩ hfuel
  · rintro q ⟨c', hk⟩
    have hq : q = 0 := c'.visits
    refine ⟨0, ?_, ?_⟩
    · rw [hasKeyBody, if_pos hq]
      rfl
    · rw [if_neg fun hc => List.not_mem_nil (hk.mp hc)]
  · rintro x l' q ⟨c', hk⟩
    rw [c'.head, hasKeyBody_eq c'.head_ne_null c'.head_key]
    by_cases hxk : x.2 = k
    · refine Or.inr ⟨1, by rw [if_pos hxk], ?_⟩
      rw [if_pos (hk.mpr (List.mem_map.mpr ⟨x, List.mem_cons_self, hxk⟩))]
    · refine Or.inl ⟨_, by rw [if_neg hxk], c'.tail, hk.trans ?_⟩
      rw [List.map_cons, List.mem_cons]
      exact or_iff_right fun hc => hxk hc.symm

theorem hasKey_loop (c : Chain h p l) (hfuel : l.length < fuel) (k : CString) :
    loop .diverges (hasKeyBody h k) fuel p =
      .ok (if k ∈ l.map Entry.key then 1 else 0) := by
  rw [c.keyChain.hasKey_loop (by rwa [List.length_map]), List.map_map]
  rfl

theorem findBody_eq (s : e.Stored h) (k : CString) :
    findBody h k e.node =
      .ok (if e.key = k then .inr e.node else .inl (h.nextOf e.node)) := by
  rw [findBody, s.nodeKey_eq, ok_bind]
  by_cases hk : e.key = k
  · rw [if_neg fun hc => hc (strcmp_eq_zero_iff.mpr hk), if_pos hk]
    rfl
  · rw [if_pos fun hc => hk (strcmp_eq_zero_iff.mp hc), if_neg hk, s.node_eq, ok_bind]
    rfl

/-- **The unchecked loop of `hashmap_getValue` and `hashmap_update`** ends at the
entry, if the chain has one with this key. -/
theorem find_loop (c : Chain h p l) (hfuel : l.length < fuel) (he : e ∈ l)
    (honly : ∀ e' ∈ l, e'.key = e.key → e' = e) :
    loop .diverges (findBody h e.key) fuel p = .ok e.node := by
  suffices hloop : ∃ b, loop .diverges (findBody h e.key) fuel p = .ok b ∧ b = e.node by
    obtain ⟨b, hb, rfl⟩ := hloop
    exact hb
  refine loop_spec
    (I := fun l' p' => Chain h p' l' ∧ e ∈ l' ∧ ∀ e' ∈ l', e'.key = e.key → e' = e)
    ?_ ?_ ⟨c, he, honly⟩ hfuel
  · rintro q ⟨-, hmem, -⟩
    exact absurd hmem List.not_mem_nil
  · rintro e' l' q ⟨c', hmem, honly'⟩
    rw [c'.head, findBody_eq c'.head_stored]
    by_cases hkey : e'.key = e.key
    · rw [honly' e' List.mem_cons_self hkey]
      exact Or.inr ⟨e.node, by rw [if_pos rfl], rfl⟩
    · refine Or.inl ⟨_, by rw [if_neg hkey], c'.tail, ?_, fun x hx =>
        honly' x (List.mem_cons_of_mem e' hx)⟩
      exact (List.mem_cons.mp hmem).resolve_left fun hc => hkey (by rw [hc])

theorem lastBody_eq {key : CString} (hkey : h.nodeKey p = .ok key) :
    lastBody h p = .ok (if h.nextOf p = 0 then .inr p else .inl (h.nextOf p)) := by
  obtain ⟨kv, hnode⟩ := h.node_of_nodeKey hkey
  rw [lastBody, hnode, ok_bind]
  by_cases hnext : h.nextOf p = 0
  · rw [if_neg fun hc => hc hnext, if_pos hnext]
    rfl
  · rw [if_pos hnext, if_neg hnext]
    rfl

/-- **The loop of `hashmap_insert`** ends at the last node of a chain. -/
theorem KeyChain.last_loop {l : List (ℕ × CString)} {x : ℕ × CString}
    (c : KeyChain h p (l ++ [x])) (hfuel : l.length < fuel) :
    loop .diverges (lastBody h) fuel p = .ok x.1 := by
  suffices hloop : ∃ b, loop .diverges (lastBody h) fuel p = .ok b ∧ b = x.1 by
    obtain ⟨b, hb, rfl⟩ := hloop
    exact hb
  refine loop_spec (I := fun l' p' => KeyChain h p' (l' ++ [x])) ?_ ?_ c hfuel
  · intro q c'
    have hlast : h.nextOf x.1 = 0 := c'.visits.2.2
    refine ⟨x.1, ?_, rfl⟩
    rw [c'.head, lastBody_eq c'.head_key, if_pos hlast]
  · intro y l' q c'
    have hnext : h.nextOf y.1 ≠ 0 := by
      rw [Ne, c'.tail.visits.eq_null_iff, List.map_eq_nil_iff]
      exact List.append_ne_nil_of_right_ne_nil _ (List.cons_ne_nil _ _)
    rw [c'.head]
    refine Or.inl ⟨_, ?_, c'.tail⟩
    rw [lastBody_eq c'.head_key, if_neg hnext]

theorem last_loop (c : Chain h p (l ++ [e])) (hfuel : l.length < fuel) :
    loop .diverges (lastBody h) fuel p = .ok e.node := by
  have ck := c.keyChain
  rw [List.map_append] at ck
  exact ck.last_loop (by rwa [List.length_map])

theorem removeBody_eq {x : Entry} (s : e.Stored h) (sx : x.Stored h) (k : CString) :
    removeBody h k (e.node, x.node) =
      .ok (if e.key = k then .inr (e.node, x.node)
        else .inl (h.nextOf e.node, h.nextOf x.node)) := by
  rw [removeBody, s.nodeKey_eq, ok_bind]
  by_cases hk : e.key = k
  · rw [if_neg fun hc => hc (strcmp_eq_zero_iff.mpr hk), if_pos hk]
    rfl
  · rw [if_pos fun hc => hk (strcmp_eq_zero_iff.mp hc), if_neg hk, s.node_eq, ok_bind,
      sx.node_eq, ok_bind]
    rfl

/-- **The unchecked loop of `hashmap_removeKey`** ends at the entry with this key
and the one in front of it. -/
theorem remove_loop {x : Entry} (c : Chain h p (x :: l)) (hfuel : l.length < fuel)
    (he : e ∈ l) (honly : ∀ e' ∈ l, e'.key = e.key → e' = e) :
    ∃ front y rest, x :: l = front ++ y :: e :: rest ∧
      loop .diverges (removeBody h e.key) fuel (h.nextOf x.node, x.node) =
        .ok (e.node, y.node) := by
  suffices hloop : ∃ b,
      loop .diverges (removeBody h e.key) fuel (h.nextOf x.node, x.node) = .ok b ∧
      ∃ front y rest, x :: l = front ++ y :: e :: rest ∧ b = (e.node, y.node) by
    obtain ⟨b, hb, front, y, rest, hsplit, rfl⟩ := hloop
    exact ⟨front, y, rest, hsplit, hb⟩
  refine loop_spec
    (I := fun l' q => ∃ front y, x :: l = front ++ y :: l' ∧ q.2 = y.node ∧
      y.Stored h ∧ q.1 = h.nextOf y.node ∧ Chain h (h.nextOf y.node) l' ∧ e ∈ l' ∧
      ∀ e' ∈ l', e'.key = e.key → e' = e)
    ?_ ?_ ⟨[], x, rfl, rfl, c.head_stored, rfl, c.tail, he, honly⟩ hfuel
  · rintro q ⟨-, -, -, -, -, -, -, hmem, -⟩
    exact absurd hmem List.not_mem_nil
  · rintro e' l' ⟨q₁, q₂⟩ ⟨front, y, hsplit, hq₂, sy, hq₁, c', hmem, honly'⟩
    dsimp only at hq₁ hq₂
    have hhead : q₁ = e'.node := hq₁.trans c'.head
    rw [hhead, hq₂, removeBody_eq c'.head_stored sy]
    by_cases hkey : e'.key = e.key
    · have heq : e' = e := honly' e' List.mem_cons_self hkey
      rw [heq] at hsplit ⊢
      exact Or.inr ⟨_, by rw [if_pos rfl], front, y, l', hsplit, rfl⟩
    · refine Or.inl ⟨_, by rw [if_neg hkey], front ++ [y], e', ?_, c'.head,
        c'.head_stored, rfl, c'.tail, ?_, fun z hz => honly' z (List.mem_cons_of_mem e' hz)⟩
      · rw [hsplit, List.append_assoc]
        rfl
      · exact (List.mem_cons.mp hmem).resolve_left fun hc => hkey (by rw [hc])

/-- The lines printed for an entry. -/
def entryLines (key value : CString) : List Line := [.blank, .key key, .value value]

theorem printBody_eq (s : e.Stored h) (hne : e.node ≠ 0) (out : List Line) :
    printBody h (e.node, out) =
      .ok (.inl (h.nextOf e.node, out ++ entryLines e.key e.value)) := by
  rw [printBody, if_neg hne, s.nodeKey_eq, ok_bind, s.nodeValue_eq, ok_bind, s.node_eq,
    ok_bind]
  rfl

/-- **The inner loop of `hashmap_printKeys`** prints the entries of the chain. -/
theorem print_loop (c : Chain h p l) (hfuel : l.length < fuel) (out : List Line) :
    loop .diverges (printBody h) fuel (p, out) =
      .ok (out ++ l.flatMap fun e => entryLines e.key e.value) := by
  suffices hloop : ∃ b, loop .diverges (printBody h) fuel (p, out) = .ok b ∧
      b = out ++ l.flatMap fun e => entryLines e.key e.value by
    obtain ⟨b, hb, rfl⟩ := hloop
    exact hb
  refine loop_spec
    (I := fun l' q => Chain h q.1 l' ∧
      q.2 ++ (l'.flatMap fun e => entryLines e.key e.value) =
        out ++ l.flatMap fun e => entryLines e.key e.value)
    ?_ ?_ ⟨c, rfl⟩ hfuel
  · rintro ⟨q, done⟩ ⟨c', hout⟩
    have hq : q = 0 := c'.visits
    rw [List.flatMap_nil, List.append_nil] at hout
    refine ⟨done, ?_, hout⟩
    rw [printBody, if_pos hq]
    rfl
  · rintro e' l' ⟨q, done⟩ ⟨c', hout⟩
    have hq : q = e'.node := c'.head
    refine Or.inl ⟨(h.nextOf e'.node, done ++ entryLines e'.key e'.value), ?_, c'.tail, ?_⟩
    · rw [hq, printBody_eq c'.head_stored c'.head_ne_null]
    · rw [← hout, List.flatMap_cons, List.append_assoc]

end Loops

/-! ## The operations that only read -/

section Queries

variable (hn : 1 ≤ n)

include hn

theorem hashmap_hasKey_eq (hidx : Indexed n k) (r : Represents n h heads es) :
    hashmap_hasKey ⟨h, some (table n heads)⟩ k =
      .ok (if k ∈ es.map Entry.key then 1 else 0) := by
  have hlt : strlen k % n < n := Nat.mod_lt _ hn
  have hmem : k ∈ (inBucket n es (strlen k % n)).map Entry.key ↔ k ∈ es.map Entry.key := by
    rw [List.mem_map, List.mem_map]
    constructor
    · rintro ⟨e, he, rfl⟩
      exact ⟨e, (mem_inBucket.mp he).1, rfl⟩
    · rintro ⟨e, he, rfl⟩
      exact ⟨e, mem_inBucket.mpr ⟨he, rfl⟩, rfl⟩
  rw [hashmap_hasKey]
  dsimp only
  rw [hidx, ok_bind, list_table (by rw [r.length]; exact hlt), ok_bind,
    hasKey_loop (r.chainOf hlt) (r.chain_length_lt hlt)]
  simp only [hmem]

/-- The search of the present key `e.key` in its bucket. -/
theorem Represents.find (r : Represents n h heads es) (he : e ∈ es) :
    loop .diverges (findBody h e.key) addresses (heads.getD (strlen e.key % n) 0) =
      .ok e.node := by
  have hlt : strlen e.key % n < n := Nat.mod_lt _ hn
  exact find_loop (r.chainOf hlt) (r.chain_length_lt hlt) (mem_inBucket.mpr ⟨he, rfl⟩)
    fun e' he' hkey => r.eq_of_key (mem_inBucket.mp he').1 he hkey

theorem hashmap_getValue_absent (hidx : Indexed n k) (r : Represents n h heads es)
    (hk : k ∉ es.map Entry.key) :
    hashmap_getValue ⟨h, some (table n heads)⟩ k = .ok 0 := by
  rw [hashmap_getValue]
  dsimp only
  rw [hashmap_hasKey_eq hn hidx r, if_neg hk, ok_bind, if_pos rfl]
  rfl

theorem hashmap_getValue_present (hidx : Indexed n e.key) (r : Represents n h heads es)
    (he : e ∈ es) :
    hashmap_getValue ⟨h, some (table n heads)⟩ e.key = .ok e.valueBuffer := by
  have hlt : strlen e.key % n < n := Nat.mod_lt _ hn
  rw [hashmap_getValue]
  dsimp only
  rw [hashmap_hasKey_eq hn hidx r, if_pos (List.mem_map_of_mem he), ok_bind,
    if_neg (by decide), hidx, ok_bind,
    list_table (by rw [r.length]; exact hlt), ok_bind, r.find hn he, ok_bind,
    (r.stored e he).node_eq, ok_bind, (r.stored e he).pair_eq, ok_bind]
  rfl

/-- The lines of bucket `i`. -/
def bucketLines (n : ℕ) (entries : List (CString × CString)) (i : ℕ) : List Line :=
  [.bucket i] ++ ((entries.filter fun kv => strlen kv.1 % n = i).flatMap fun kv =>
    entryLines kv.1 kv.2) ++ [.blank]

omit hn in
/-- **`hashmap_printKeys`** lists the buckets in order, and each bucket's entries in
the order of insertion. -/
theorem hashmap_printKeys_eq (hmax : n ≤ 2 ^ 31 - 1) (r : Represents n h heads es) :
    hashmap_printKeys ⟨h, some (table n heads)⟩ =
      .ok ((List.range n).flatMap
        (bucketLines n (es.map fun e => (e.key, e.value)))) := by
  have hcount : (toInt32 ((table n heads).buckets : ℤ)).toNat = n := by
    rw [show ((table n heads).buckets : ℤ) = (n : ℤ) from rfl,
      toInt32_of_range (by omega) (by omega), Int.toNat_natCast]
  have hbucket : ∀ i ∈ List.range n, printBucket h (table n heads) i =
      .ok (bucketLines n (es.map fun e => (e.key, e.value)) i) := by
    intro i hi
    have hlt : i < n := List.mem_range.mp hi
    rw [printBucket, list_table (by rw [r.length]; exact hlt), ok_bind,
      print_loop (r.chainOf hlt) (r.chain_length_lt hlt), ok_bind, bucketLines,
      List.filter_map, List.flatMap_map]
    rfl
  rw [hashmap_printKeys]
  dsimp only
  rw [hcount, mapM_eq_ok hbucket, ok_bind, List.flatMap_def]
  rfl

end Queries

end MyHashmap
end SystemsProjects

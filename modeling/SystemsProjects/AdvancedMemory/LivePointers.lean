import SystemsProjects.AdvancedMemory.Migration

/-!
# Live pointers

A program holds the pointers that `mymalloc` has returned and that it has not freed yet.
Each of them is the payload of a block that is marked as taken and is large enough for the
request, and no two of them are the same.

A call changes one block that is not live (it is free, or new), or it frees a live one.
All other blocks keep their sizes and marks, and nothing more than this is asked by the
rules `LiveBlocks.of_others` and `LiveBlocks.free`.  `Walks.handed` says that this is what
`mymalloc` does in each of its ways to return a block.
-/

namespace SystemsProjects
namespace AdvancedMemory

open Lib Allocator BlockStore

variable {M : Type} [BlockStore M] {h h' : Heap M} {live : List (ℕ × ℕ)} {b s : ℕ}

/-- A live pointer, with the size that was asked for, is the payload of a taken block, and
no other one is. -/
structure LiveBlocks (h : Heap M) (live : List (ℕ × ℕ)) : Prop where
  block : ∀ e ∈ live, ∃ b ∈ h.created, e.1 = b + blockSize ∧ get h.mem .free b = 0 ∧
    e.2 ≤ get h.mem .size b
  once : (live.map Prod.fst).Nodup

/-- All blocks but `b` keep their sizes and marks. -/
structure OthersKept (h h' : Heap M) (b : ℕ) : Prop where
  created : ∀ c ∈ h.created, c ∈ h'.created
  fields : ∀ c ∈ h.created, c ≠ b → ∀ f, f ≠ .next → get h'.mem f c = get h.mem f c

/-- Two changes of the same block. -/
theorem OthersKept.trans {h₁ : Heap M} (hkept : OthersKept h h₁ b)
    (hkept' : OthersKept h₁ h' b) : OthersKept h h' b where
  created c hc := hkept'.created c (hkept.created c hc)
  fields c hc hcb f hf :=
    (hkept'.fields c (hkept.created c hc) hcb f hf).trans (hkept.fields c hc hcb f hf)

/-- **Block `b` is handed out** for `s` bytes: it was free or is new, and the other blocks are
as they were. -/
structure Handed (h h' : Heap M) (b s : ℕ) : Prop where
  kept : OthersKept h h' b
  idle : b ∈ h.created → get h.mem .free b ≠ 0
  mem : b ∈ h'.created
  taken : get h'.mem .free b = 0
  large : s ≤ get h'.mem .size b

/-- The first call makes no block and changes none. -/
theorem othersKept_initHeap (h : Heap M) (cpus : ℕ) (answer : Option ℕ) (b : ℕ) :
    OthersKept h (initHeap h cpus answer) b := by
  obtain ⟨hcreated, hget, -⟩ := initHeap_fields h cpus answer
  exact ⟨fun c hc => by rw [hcreated]; exact hc, fun c _ _ f _ => hget f c⟩

/-- Marking a block keeps the other ones. -/
theorem Layout.kept_setFree (l : Layout h) (hb : b ∈ h.created) (v : ℕ) :
    OthersKept h { h with mem := set h.mem .free b v } b where
  created _ hc := hc
  fields _ hc hcb _ _ := l.get_set hb hc v (Or.inl hcb)

namespace LiveBlocks

theorem nil (h : Heap M) : LiveBlocks h [] where
  block _ he := absurd he List.not_mem_nil
  once := List.nodup_nil

/-- **A block that is not live** is changed. -/
theorem of_others (v : LiveBlocks h live) (hkept : OthersKept h h' b)
    (hb : b ∈ h.created → get h.mem .free b ≠ 0) : LiveBlocks h' live where
  block e he := by
    obtain ⟨c, hc, hec, hzero, hle⟩ := v.block e he
    have hcb : c ≠ b := by
      rintro rfl
      exact hb hc hzero
    refine ⟨c, hkept.created c hc, hec, ?_, ?_⟩
    · rw [hkept.fields c hc hcb .free (by decide), hzero]
    · rw [hkept.fields c hc hcb .size (by decide)]
      exact hle
  once := v.once

/-- A change of a block that is not live keeps the sizes of the live ones. -/
theorem size_of_others {c : ℕ} (v : LiveBlocks h live) (hkept : OthersKept h h' b)
    (hidle : b ∈ h.created → get h.mem .free b ≠ 0) {e : ℕ × ℕ} (he : e ∈ live)
    (hc : e.1 = c + blockSize) : get h'.mem .size c = get h.mem .size c := by
  obtain ⟨d, hd, hed, hzero, -⟩ := v.block e he
  obtain rfl : d = c := Nat.add_right_cancel (hed.symm.trans hc)
  refine hkept.fields d hd ?_ .size (by decide)
  rintro rfl
  exact hidle hd hzero

/-- One more live pointer. -/
theorem cons (v : LiveBlocks h live) (hb : b ∈ h.created) (hzero : get h.mem .free b = 0)
    (hle : s ≤ get h.mem .size b) (hnew : b + blockSize ∉ live.map Prod.fst) :
    LiveBlocks h ((b + blockSize, s) :: live) where
  block e he := by
    rcases List.mem_cons.mp he with rfl | he
    · exact ⟨b, hb, rfl, hzero, hle⟩
    · exact v.block e he
  once := List.nodup_cons.mpr ⟨hnew, v.once⟩

/-- The pointer to a free block, or to a new one, is not live. -/
theorem notMem (v : LiveBlocks h live) (hb : b ∈ h.created → get h.mem .free b ≠ 0) :
    b + blockSize ∉ live.map Prod.fst := by
  intro hmem
  obtain ⟨e, he, heq⟩ := List.mem_map.mp hmem
  obtain ⟨c, hc, hec, hzero, -⟩ := v.block e he
  have hcb : c = b := Nat.add_right_cancel (hec.symm.trans heq)
  rw [hcb] at hc hzero
  exact hb hc hzero

/-- **A free block, or a new one, is handed out.** -/
theorem hand (v : LiveBlocks h live) (hkept : OthersKept h h' b)
    (hb : b ∈ h.created → get h.mem .free b ≠ 0) (hmem : b ∈ h'.created)
    (hzero : get h'.mem .free b = 0) (hle : s ≤ get h'.mem .size b) :
    LiveBlocks h' ((b + blockSize, s) :: live) :=
  (v.of_others hkept hb).cons hmem hzero hle (v.notMem hb)

theorem handed (v : LiveBlocks h live) (o : Handed h h' b s) :
    LiveBlocks h' ((b + blockSize, s) :: live) :=
  v.hand o.kept o.idle o.mem o.taken o.large

/-- **A live pointer is freed.** -/
theorem free (v : LiveBlocks h live) (hkept : OthersKept h h' b) :
    LiveBlocks h' (live.filter fun e => e.1 ≠ b + blockSize) where
  block e he := by
    obtain ⟨he, hne⟩ := List.mem_filter.mp he
    obtain ⟨c, hc, hec, hzero, hle⟩ := v.block e he
    have hcb : c ≠ b := fun h => (of_decide_eq_true hne) (by rw [hec, h])
    refine ⟨c, hkept.created c hc, hec, ?_, ?_⟩
    · rw [hkept.fields c hc hcb .free (by decide), hzero]
    · rw [hkept.fields c hc hcb .size (by decide)]
      exact hle
  once := v.once.sublist (List.filter_sublist.map _)

/-- The first call sets up the list heads, when there is no block. -/
theorem init (v : LiveBlocks h live) (hunused : h.blockHead = .null → h.created = [])
    (cpus : ℕ) (answer : Option ℕ) : LiveBlocks (initHeap h cpus answer) live := by
  rw [initHeap]
  by_cases hnull : h.blockHead = .null
  · have hnone : live = [] := by
      rw [List.eq_nil_iff_forall_not_mem]
      intro e he
      obtain ⟨b, hb, -⟩ := v.block e he
      rw [hunused hnull] at hb
      exact List.not_mem_nil hb
    rw [hnone]
    exact nil _
  · rw [if_neg hnull]
    exact v

end LiveBlocks

/-! ## What `mymalloc` hands out -/

/-- A free block that is taken. -/
theorem Layout.handed_claim (l : Layout h) (hb : b ∈ h.created) (hfits : Fits h.mem s b) :
    Handed h (claim h b) b s where
  kept := l.kept_setFree hb 0
  idle _ := by
    rw [hfits.2]
    exact Nat.one_ne_zero
  mem := hb
  taken := get_set_of_lt _ b (by decide)
  large := hfits.1.trans (l.get_set hb hb 0 (Or.inr (by decide))).ge

/-- A new block. -/
theorem Linked.handed {cpu last a : ℕ} (k : Linked h cpu last s a h') (l : Layout h)
    (hfresh : Fresh h.mem (request s a).1) (hlast : last = 0 ∨ last ∈ h.created) :
    Handed h h' a s where
  kept := ⟨fun _ hc => k.mem_created.mpr (Or.inl hc), fun _ hc _ _ hf =>
    k.get_old l hfresh hlast hc hf⟩
  idle hmem := absurd hmem (l.new_notMem hfresh)
  mem := k.mem_created.mpr (Or.inr rfl)
  taken := k.free_new l hfresh hlast
  large := by
    rw [k.size_new l hfresh hlast]
    exact (request_spec hfresh.stop).2.2.1

/-- The block may be split afterwards. -/
theorem Handed.split {h₁ : Heap M} (o : Handed h h₁ b s) (l : Layout h₁) (p : CanSplit h₁ b s) :
    Handed h (splitHeap h₁ b s) b s where
  kept := o.kept.trans ⟨fun _ hc => List.mem_append_left _ hc, fun _ hc hcb f _ =>
    p.get_other l hc hcb f⟩
  idle := o.idle
  mem := List.mem_append_left _ o.mem
  taken := (free_splitMem_old (p.additional_apart l o.mem)).trans o.taken
  large := (p.size_old l).ge

/-- **`mymalloc` hands out a block**, unless no block of the list fits and the system refuses. -/
theorem Walks.handed {env : Environment} {q : ℕ} (o : Walks h)
    (hfresh : ∀ a, env.answer = some a → Fresh h.mem (request s a).1)
    (houtcome : MallocOutcome h env s h' q) :
    (q = 0 ∧ h' = h ∧ NoneFits h env s ∧ env.answer = none) ∨
      ((¬ NoneFits h env s ∨ env.answer ≠ none) ∧ ∃ b, q = b + blockSize ∧ Handed h h' b s) := by
  cases houtcome with
  | @reuse b hlist hfits hwhole =>
    have hb := o.listed hlist
    exact Or.inr ⟨Or.inl fun hnone => hnone b hlist hfits, b, o.payload_eq hb,
      o.toLayout.handed_claim hb hfits⟩
  | @reuseSplit b hlist hfits hsplit =>
    have hb := o.listed hlist
    exact Or.inr ⟨Or.inl fun hnone => hnone b hlist hfits, b, o.payload_eq hb,
      (o.toLayout.handed_claim hb hfits).split (o.toLayout.set_field hb (by decide) 0) hsplit⟩
  | refused hnone hanswer => exact Or.inl ⟨rfl, rfl, hnone, hanswer⟩
  | @extend a last h' hnone hanswer hwalk hlink hwhole =>
    have l' := hlink.layout o.toLayout (hfresh a hanswer) (o.last hwalk)
    have hhanded := hlink.handed o.toLayout (hfresh a hanswer) (o.last hwalk)
    have hgranted : env.answer ≠ none := by
      rw [hanswer]
      exact Option.some_ne_none a
    exact Or.inr ⟨Or.inr hgranted, a, l'.payload_eq hhanded.mem, hhanded⟩
  | @extendSplit a last h₁ hnone hanswer hwalk hlink hsplit =>
    have l' := hlink.layout o.toLayout (hfresh a hanswer) (o.last hwalk)
    have hhanded := hlink.handed o.toLayout (hfresh a hanswer) (o.last hwalk)
    have hgranted : env.answer ≠ none := by
      rw [hanswer]
      exact Option.some_ne_none a
    exact Or.inr ⟨Or.inr hgranted, a, l'.payload_eq hhanded.mem, hhanded.split l' hsplit⟩

/-- **The pointer that is returned becomes live.** -/
theorem LiveBlocks.malloc {env : Environment} {q : ℕ} (v : LiveBlocks h live) (o : Walks h)
    (hfresh : ∀ a, env.answer = some a → Fresh h.mem (request s a).1)
    (houtcome : MallocOutcome h env s h' q) :
    LiveBlocks h' (if q = 0 then live else (q, s) :: live) := by
  rcases o.handed hfresh houtcome with ⟨rfl, rfl, -⟩ | ⟨-, b, rfl, hhanded⟩
  · exact v
  · have hpositive : b + blockSize ≠ 0 := Nat.succ_ne_zero (b + 23)
    rw [if_neg hpositive]
    exact v.handed hhanded

end AdvancedMemory
end SystemsProjects

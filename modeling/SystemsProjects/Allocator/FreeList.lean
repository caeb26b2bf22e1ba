import SystemsProjects.Allocator.BlockStore
import SystemsProjects.Lib.Loop

/-!
# Walks along a list of blocks

The two loops that both allocators have: the search for the smallest free block
that is large enough, in `findOptimalFreeBlock`, and the walk to the end of the
list, in `getLastBlock`.

Each loop is described twice.  On a chain that ends, it returns, and what it
returns is a function of the blocks of the chain.  On blocks whose links stay
among the blocks of a set, it returns one of them if it returns: this is all that
can be said of lists that other threads have changed.
-/

namespace SystemsProjects
namespace Allocator

open Lib BlockStore

variable {M : Type} [BlockStore M]

/-- The number of addresses.  No loop of the allocators writes to memory, so a walk
of more steps never ends. -/
def addresses : ℕ := 2 ^ 64

/-! ## The bodies of the loops -/

/-- The nested `if`s of `findOptimalFreeBlock`: `optimal_block` after them. -/
def betterBlock (m : M) (s blockList optimal : ℕ) : Except Stop ℕ := do
  let size ← load m .size blockList
  if s ≤ size then do
    let free ← load m .free blockList
    if free = 1 then
      if optimal = 0 then pure blockList
      else do
        let optimalSize ← load m .size optimal
        pure (if optimalSize > size then blockList else optimal)
    else pure optimal
  else pure optimal

/-- The body of the loop of `findOptimalFreeBlock`, on `block_list` and
`optimal_block`. -/
def findOptimalBody (m : M) (s : ℕ) : ℕ × ℕ → Except Stop (ℕ × ℕ ⊕ ℕ)
  | (blockList, optimal) =>
    if blockList = 0 then pure (.inr optimal)
    else do
      let optimal ← betterBlock m s blockList optimal
      let next ← load m .next blockList
      pure (.inl (next, optimal))

/-- The body of the loop of `getLastBlock`. -/
def lastBlockBody (m : M) (last : ℕ) : Except Stop (ℕ ⊕ ℕ) := do
  let next ← load m .next last
  pure (if next ≠ 0 then .inl next else .inr last)

/-- The search from `list` on. -/
def searchList (m : M) (s list : ℕ) : Except Stop ℕ :=
  loop .diverges (findOptimalBody m s) addresses (list, 0)

/-- The last block of the list that starts with `list`, NULL for an empty list. -/
def lastOfList (m : M) (list : ℕ) : Except Stop ℕ :=
  if list = 0 then pure 0 else loop .diverges (lastBlockBody m) addresses list

/-! ## What one round does -/

/-- The block can serve a request of `s` bytes. -/
def Fits (m : M) (s b : ℕ) : Prop := s ≤ get m .size b ∧ get m .free b = 1

instance (m : M) (s b : ℕ) : Decidable (Fits m s b) :=
  inferInstanceAs (Decidable (_ ∧ _))

/-- The better one of the best block so far and the next block. -/
def pick (m : M) (s optimal b : ℕ) : ℕ :=
  if Fits m s b then
    if optimal = 0 then b
    else if get m .size optimal > get m .size b then b else optimal
  else optimal

theorem betterBlock_eq {m : M} {s b optimal : ℕ} (hheader : Header m b)
    (hoptimal : optimal = 0 ∨ Header m optimal) :
    betterBlock m s b optimal = .ok (pick m s optimal b) := by
  rw [betterBlock, load_eq _ hheader, ok_bind, pick]
  by_cases hsize : s ≤ get m .size b
  · rw [if_pos hsize, load_eq _ hheader, ok_bind]
    by_cases hfree : get m .free b = 1
    · have hfits : Fits m s b := ⟨hsize, hfree⟩
      rw [if_pos hfree, if_pos hfits]
      by_cases hnull : optimal = 0
      · rw [if_pos hnull, if_pos hnull]
        rfl
      · rw [if_neg hnull, if_neg hnull, load_eq _ (hoptimal.resolve_left hnull)]
        rfl
    · rw [if_neg hfree, if_neg fun h => hfree h.2]
      rfl
  · rw [if_neg hsize, if_neg fun h => hsize h.1]
    rfl

theorem findOptimalBody_eq {m : M} {s b optimal : ℕ} (hb : b ≠ 0) (hheader : Header m b)
    (hoptimal : optimal = 0 ∨ Header m optimal) :
    findOptimalBody m s (b, optimal) = .ok (.inl (get m .next b, pick m s optimal b)) := by
  rw [findOptimalBody, if_neg hb, betterBlock_eq hheader hoptimal, ok_bind,
    load_eq _ hheader, ok_bind]
  rfl

theorem lastBlockBody_eq {m : M} {b : ℕ} (hheader : Header m b) :
    lastBlockBody m b =
      .ok (if get m .next b ≠ 0 then .inl (get m .next b) else .inr b) := by
  rw [lastBlockBody, load_eq _ hheader, ok_bind]
  rfl

/-- The better one of two blocks is one of them, and one that fits if it is new. -/
theorem pick_cases (m : M) (s optimal b : ℕ) :
    pick m s optimal b = optimal ∨ (pick m s optimal b = b ∧ Fits m s b) := by
  rw [pick]
  by_cases hfits : Fits m s b
  · rw [if_pos hfits]
    split
    · exact Or.inr ⟨rfl, hfits⟩
    · split
      · exact Or.inr ⟨rfl, hfits⟩
      · exact Or.inl rfl
  · exact Or.inl (if_neg hfits)

/-! ## Chains that end -/

/-- A chain through blocks whose headers can be read. -/
structure BlockChain (m : M) (list : ℕ) (bs : List ℕ) : Prop where
  visits : Visits 0 (get m .next) list bs
  header : ∀ b ∈ bs, Header m b
  lt : ∀ b ∈ bs, b < addresses

namespace BlockChain

variable {m : M} {list : ℕ} {bs : List ℕ}

theorem tail {b : ℕ} (c : BlockChain m list (b :: bs)) :
    BlockChain m (get m .next b) bs where
  visits := c.visits.2.2
  header x hx := c.header x (List.mem_cons_of_mem b hx)
  lt x hx := c.lt x (List.mem_cons_of_mem b hx)

theorem length_lt (c : BlockChain m list bs) : bs.length < addresses :=
  c.visits.length_lt c.lt (by decide)

/-- **The search returns the best of the blocks**, picked from left to right. -/
theorem searchList_eq (c : BlockChain m list bs) (s : ℕ) :
    searchList m s list = .ok (bs.foldl (pick m s) 0) := by
  suffices hloop : ∃ r, loop .diverges (findOptimalBody m s) addresses (list, 0) = .ok r ∧
      r = bs.foldl (pick m s) 0 by
    obtain ⟨r, hr, rfl⟩ := hloop
    exact hr
  refine loop_spec
    (I := fun rest q => BlockChain m q.1 rest ∧ (q.2 = 0 ∨ Header m q.2) ∧
      rest.foldl (pick m s) q.2 = bs.foldl (pick m s) 0)
    ?_ ?_ ⟨c, Or.inl rfl, rfl⟩ c.length_lt
  · rintro ⟨p, optimal⟩ ⟨c', -, hfold⟩
    have hp : p = 0 := c'.visits
    refine ⟨optimal, ?_, hfold⟩
    rw [findOptimalBody, if_pos hp]
    rfl
  · rintro b rest ⟨p, optimal⟩ ⟨c', hoptimal, hfold⟩
    have hp : p = b := c'.visits.1
    have hheader : Header m b := c'.header b List.mem_cons_self
    refine Or.inl ⟨(get m .next b, pick m s optimal b), ?_, c'.tail, ?_, hfold⟩
    · rw [hp]
      exact findOptimalBody_eq c'.visits.2.1 hheader hoptimal
    · rcases pick_cases m s optimal b with hpick | ⟨hpick, -⟩
      · rw [hpick]
        exact hoptimal
      · rw [hpick]
        exact Or.inr hheader

/-- **The walk to the end returns the last block.** -/
theorem lastOfList_eq {b : ℕ} (c : BlockChain m list (bs ++ [b])) :
    lastOfList m list = .ok b := by
  have hlist : list ≠ 0 := by
    rw [Ne, c.visits.eq_null_iff]
    exact List.append_ne_nil_of_right_ne_nil _ (List.cons_ne_nil b [])
  have hfuel : bs.length < addresses := by
    have hlen := c.length_lt
    rw [List.length_append] at hlen
    exact Nat.lt_of_add_right_lt hlen
  suffices hloop : ∃ r, loop .diverges (lastBlockBody m) addresses list = .ok r ∧ r = b by
    obtain ⟨r, hr, rfl⟩ := hloop
    rw [lastOfList, if_neg hlist]
    exact hr
  refine loop_spec (I := fun rest p => BlockChain m p (rest ++ [b])) ?_ ?_ c hfuel
  · intro p c'
    have hp : p = b := c'.visits.1
    have hlast : get m .next b = 0 := c'.visits.2.2
    refine ⟨b, ?_, rfl⟩
    rw [hp, lastBlockBody_eq (c'.header b List.mem_cons_self), if_neg fun hc => hc hlast]
  · intro x rest p c'
    have hp : p = x := c'.visits.1
    have hnext : get m .next x ≠ 0 := by
      rw [Ne, c'.tail.visits.eq_null_iff]
      exact List.append_ne_nil_of_right_ne_nil _ (List.cons_ne_nil b [])
    refine Or.inl ⟨get m .next x, ?_, c'.tail⟩
    rw [hp, lastBlockBody_eq (c'.header x List.mem_cons_self), if_pos hnext]

end BlockChain

theorem lastOfList_null (m : M) : lastOfList m 0 = .ok 0 := by
  rw [lastOfList, if_pos rfl]
  rfl

/-- A pick from left to right is the first value or a block that fits. -/
theorem foldl_pick_cases (m : M) (s : ℕ) : ∀ (bs : List ℕ) (optimal : ℕ),
    bs.foldl (pick m s) optimal = optimal ∨
      (bs.foldl (pick m s) optimal ∈ bs ∧ Fits m s (bs.foldl (pick m s) optimal))
  | [], _ => Or.inl rfl
  | b :: bs, optimal => by
    rw [List.foldl_cons]
    rcases foldl_pick_cases m s bs (pick m s optimal b) with h | ⟨hmem, hfits⟩
    · rw [h]
      rcases pick_cases m s optimal b with hpick | ⟨hpick, hfits⟩
      · exact Or.inl hpick
      · rw [hpick]
        exact Or.inr ⟨List.mem_cons_self, hfits⟩
    · exact Or.inr ⟨List.mem_cons_of_mem b hmem, hfits⟩

/-! ## Best fit -/

/-- **A best fit**: `b` is the first one of the blocks `bs` that fit and have the least size. -/
structure BestFit (m : M) (s : ℕ) (bs : List ℕ) (b : ℕ) : Prop where
  fits : Fits m s b
  first : ∃ front rest, bs = front ++ b :: rest ∧
    (∀ c ∈ front, Fits m s c → get m .size b < get m .size c) ∧
    ∀ c ∈ rest, Fits m s c → get m .size b ≤ get m .size c

namespace BestFit

variable {m : M} {s : ℕ} {bs : List ℕ} {b c : ℕ}

theorem mem (h : BestFit m s bs b) : b ∈ bs := by
  obtain ⟨front, rest, rfl, -, -⟩ := h.first
  exact List.mem_append_right _ List.mem_cons_self

theorem least (h : BestFit m s bs b) (hc : c ∈ bs) (hfits : Fits m s c) :
    get m .size b ≤ get m .size c := by
  obtain ⟨front, rest, rfl, hfront, hrest⟩ := h.first
  rcases List.mem_append.mp hc with hc | hc
  · exact (hfront c hc hfits).le
  · rcases List.mem_cons.mp hc with rfl | hc
    · exact le_rfl
    · exact hrest c hc hfits

/-- A smaller block behind all others. -/
theorem of_smaller (hfits : Fits m s b)
    (hless : ∀ c ∈ bs, Fits m s c → get m .size b < get m .size c) :
    BestFit m s (bs ++ [b]) b :=
  ⟨hfits, bs, [], rfl, hless, fun _ hc => absurd hc List.not_mem_nil⟩

/-- A block that does not fit, or is not smaller, behind all others. -/
theorem concat (h : BestFit m s bs b) (hnext : Fits m s c → get m .size b ≤ get m .size c) :
    BestFit m s (bs ++ [c]) b := by
  obtain ⟨front, rest, rfl, hfront, hrest⟩ := h.first
  refine ⟨h.fits, front, rest ++ [c], by rw [List.append_assoc, List.cons_append], hfront,
    fun d hd => ?_⟩
  rcases List.mem_append.mp hd with hd | hd
  · exact hrest d hd
  · rw [List.mem_singleton.mp hd]
    exact hnext

end BestFit

/-- **The search is a best fit**, whatever part of the list has been searched: nothing is found
as long as nothing fits, and then the first one of the smallest blocks. -/
theorem foldl_pick_spec (m : M) (s : ℕ) (bs : List ℕ) (hbs : ∀ b ∈ bs, b ≠ 0) :
    (bs.foldl (pick m s) 0 = 0 ∧ ∀ b ∈ bs, ¬ Fits m s b) ∨
      BestFit m s bs (bs.foldl (pick m s) 0) := by
  induction bs using List.reverseRecOn with
  | nil => exact Or.inl ⟨rfl, fun b hb => absurd hb List.not_mem_nil⟩
  | append_singleton front b ih =>
    have ih := ih fun c hc => hbs c (List.mem_append_left _ hc)
    rw [List.foldl_append, List.foldl_cons, List.foldl_nil]
    generalize front.foldl (pick m s) 0 = optimal at ih
    by_cases hfits : Fits m s b
    · rw [pick, if_pos hfits]
      rcases ih with ⟨hnull, hnone⟩ | hbest
      · rw [if_pos hnull]
        exact Or.inr (BestFit.of_smaller hfits fun c hc hc' => absurd hc' (hnone c hc))
      · rw [if_neg (hbs optimal (List.mem_append_left _ hbest.mem))]
        by_cases hless : get m .size optimal > get m .size b
        · rw [if_pos hless]
          exact Or.inr
            (BestFit.of_smaller hfits fun c hc hc' => hless.trans_le (hbest.least hc hc'))
        · rw [if_neg hless]
          exact Or.inr (hbest.concat fun _ => Nat.le_of_not_lt hless)
    · rw [pick, if_neg hfits]
      rcases ih with ⟨hnull, hnone⟩ | hbest
      · refine Or.inl ⟨hnull, fun c hc => ?_⟩
        rcases List.mem_append.mp hc with hc | hc
        · exact hnone c hc
        · rw [List.mem_singleton.mp hc]
          exact hfits
      · exact Or.inr (hbest.concat fun h => absurd h hfits)

/-- The search of a list of blocks fails exactly if none of them fits. -/
theorem foldl_pick_eq_zero_iff (m : M) (s : ℕ) {bs : List ℕ} (hbs : ∀ b ∈ bs, b ≠ 0) :
    bs.foldl (pick m s) 0 = 0 ↔ ∀ b ∈ bs, ¬ Fits m s b := by
  rcases foldl_pick_spec m s bs hbs with ⟨hnull, hnone⟩ | hbest
  · exact iff_of_true hnull hnone
  · exact iff_of_false (hbs _ hbest.mem) fun hnone => hnone _ hbest.mem hbest.fits

/-! ## Links that stay in a set -/

/-- The blocks of `P` have readable headers and link to one another. -/
structure Closed (m : M) (P : ℕ → Prop) : Prop where
  header : ∀ b, P b → Header m b
  next : ∀ b, P b → get m .next b = 0 ∨ P (get m .next b)

namespace Closed

variable {m : M} {P : ℕ → Prop} {s list r : ℕ}

/-- **What the search returns**, if it returns. -/
theorem of_searchList (c : Closed m P) (hlist : list = 0 ∨ P list)
    (h : searchList m s list = .ok r) : r = 0 ∨ (P r ∧ Fits m s r) := by
  refine loop_preserves
    (I := fun q : ℕ × ℕ => (q.1 = 0 ∨ P q.1) ∧ (q.2 = 0 ∨ (P q.2 ∧ Fits m s q.2)))
    (Q := fun r => r = 0 ∨ (P r ∧ Fits m s r)) ?_ ?_ ⟨hlist, Or.inl rfl⟩ h
  · rintro ⟨p, optimal⟩ q ⟨hp, hoptimal⟩ hbody
    by_cases hnull : p = 0
    · rw [findOptimalBody, if_pos hnull] at hbody
      cases hbody
    · have hP := hp.resolve_left hnull
      rw [findOptimalBody_eq hnull (c.header p hP)
        (hoptimal.imp_right fun h => c.header _ h.1)] at hbody
      cases hbody
      refine ⟨c.next p hP, ?_⟩
      rcases pick_cases m s optimal p with hpick | ⟨hpick, hfits⟩
      · rw [hpick]
        exact hoptimal
      · rw [hpick]
        exact Or.inr ⟨hP, hfits⟩
  · rintro ⟨p, optimal⟩ b ⟨hp, hoptimal⟩ hbody
    by_cases hnull : p = 0
    · rw [findOptimalBody, if_pos hnull] at hbody
      cases hbody
      exact hoptimal
    · rw [findOptimalBody_eq hnull (c.header p (hp.resolve_left hnull))
        (hoptimal.imp_right fun h => c.header _ h.1)] at hbody
      cases hbody

/-- **What the walk to the end returns**, if it returns. -/
theorem of_lastOfList (c : Closed m P) (hlist : list = 0 ∨ P list)
    (h : lastOfList m list = .ok r) : (list = 0 ∧ r = 0) ∨ (P r ∧ get m .next r = 0) := by
  rw [lastOfList] at h
  by_cases hnull : list = 0
  · rw [if_pos hnull] at h
    cases h
    exact Or.inl ⟨hnull, rfl⟩
  · rw [if_neg hnull] at h
    refine Or.inr (loop_preserves (I := P) (Q := fun r => P r ∧ get m .next r = 0) ?_ ?_
      (hlist.resolve_left hnull) h)
    · intro p q hp hbody
      rw [lastBlockBody_eq (c.header p hp)] at hbody
      split at hbody
      · rename_i hnext
        cases hbody
        exact (c.next p hp).resolve_left hnext
      · cases hbody
    · intro p b hp hbody
      rw [lastBlockBody_eq (c.header p hp)] at hbody
      split at hbody
      · cases hbody
      · rename_i hnext
        cases hbody
        exact ⟨hp, not_not.mp hnext⟩

end Closed

end Allocator
end SystemsProjects

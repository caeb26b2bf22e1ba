import SystemsProjects.Lib.NextChain

/-!
# Families of chains

Several null-terminated chains in one memory, one for each index, that share no node.
`ChainFamily null next head chain` says that following `next` from `head x` meets
exactly the nodes `chain x`, and that no node is on two of the chains.

There are two edits, and both say which nodes are on the chains afterwards: a node is
linked in behind another one (`ChainFamily.insert_after`), or it becomes the only node
of an empty chain (`ChainFamily.start`).
-/

namespace SystemsProjects
namespace Lib

variable {α κ : Type*} {null : α} {next next' : α → α} {head : κ → α} {chain : κ → List α}

/-- Chains that share no node. -/
structure ChainFamily (null : α) (next : α → α) (head : κ → α) (chain : κ → List α) :
    Prop where
  visits : ∀ x, Visits null next (head x) (chain x)
  unique : ∀ {x y a}, a ∈ chain x → a ∈ chain y → x = y

namespace ChainFamily

/-- **A node of a chain is met from exactly one start.** -/
theorem reaches_once (c : ChainFamily null next head chain) {x : κ} {a : α}
    (ha : a ∈ chain x) : ∃! y, Reaches null next (head y) a :=
  ⟨x, (c.visits x).reaches_of_mem ha, fun y hy =>
    c.unique ((c.visits y).reaches_iff.mp hy) ha⟩

/-- The chains depend on the links of their nodes. -/
theorem congr (c : ChainFamily null next head chain)
    (hnext : ∀ x, ∀ a ∈ chain x, next' a = next a) :
    ChainFamily null next' head chain where
  visits x := (c.visits x).congr (hnext x)
  unique := c.unique

variable [DecidableEq κ]

/-- A family with one chain changed by a node that was on none. -/
theorem of_update (c : ChainFamily null next head chain) {head' : κ → α} {x : κ} {n : α}
    {l : List α} (hfresh : ∀ y, n ∉ chain y) (hl : ∀ a, a ∈ l ↔ a ∈ chain x ∨ a = n)
    (hx : Visits null next' (head' x) l)
    (hothers : ∀ y, y ≠ x → Visits null next' (head' y) (chain y)) :
    ∃ chain', ChainFamily null next' head' chain' ∧
      ∀ y a, a ∈ chain' y ↔ a ∈ chain y ∨ (y = x ∧ a = n) := by
  have hmem : ∀ y a, a ∈ Function.update chain x l y ↔ a ∈ chain y ∨ (y = x ∧ a = n) := by
    intro y a
    by_cases hyx : y = x
    · rw [hyx, Function.update_self, hl, and_iff_right rfl]
    · rw [Function.update_of_ne hyx]
      exact ⟨Or.inl, fun h => h.resolve_right fun h' => hyx h'.1⟩
  refine ⟨Function.update chain x l, ⟨fun y => ?_, fun {y z a} hy hz => ?_⟩, hmem⟩
  · by_cases hyx : y = x
    · rw [hyx, Function.update_self]
      exact hx
    · rw [Function.update_of_ne hyx]
      exact hothers y hyx
  · rcases (hmem y a).mp hy with hy | ⟨hyx, han⟩
    · rcases (hmem z a).mp hz with hz | ⟨-, han⟩
      · exact c.unique hy hz
      · exact absurd (han ▸ hy) (hfresh y)
    · rcases (hmem z a).mp hz with hz | ⟨hzx, -⟩
      · exact absurd (han ▸ hz) (hfresh z)
      · rw [hyx, hzx]

/-- **A node is linked in behind another one.** -/
theorem insert_after (c : ChainFamily null next head chain) {x : κ} {b n : α}
    (hb : b ∈ chain x) (hn : n ≠ null) (hfresh : ∀ y, n ∉ chain y) (hbn : next' b = n)
    (hlink : next' n = next b) (hother : ∀ y, ∀ a ∈ chain y, a ≠ b → next' a = next a) :
    ∃ chain', ChainFamily null next' head chain' ∧
      ∀ y a, a ∈ chain' y ↔ a ∈ chain y ∨ (y = x ∧ a = n) := by
  obtain ⟨l, hvisits, hmem⟩ := (c.visits x).insert_of_mem hb hn hbn hlink (hother x)
  refine c.of_update hfresh hmem hvisits fun y hy => ?_
  refine (c.visits y).congr fun a ha => hother y a ha ?_
  rintro rfl
  exact hy (c.unique ha hb)

/-- **A node becomes the only one of an empty chain.** -/
theorem start (c : ChainFamily null next head chain) {x : κ} {n : α} (hx : head x = null)
    (hn : n ≠ null) (hfresh : ∀ y, n ∉ chain y) (hlink : next' n = null)
    (hother : ∀ y, ∀ a ∈ chain y, next' a = next a) :
    ∃ chain', ChainFamily null next' (Function.update head x n) chain' ∧
      ∀ y a, a ∈ chain' y ↔ a ∈ chain y ∨ (y = x ∧ a = n) := by
  have hempty : chain x = [] := (c.visits x).eq_null_iff.mp hx
  refine c.of_update (l := [n]) hfresh (fun a => ?_) ?_ fun y hy => ?_
  · rw [hempty, List.mem_singleton]
    exact ⟨Or.inr, fun h => h.resolve_left List.not_mem_nil⟩
  · rw [Function.update_self]
    exact ⟨rfl, hn, hlink⟩
  · rw [Function.update_of_ne hy]
    exact (c.visits y).congr (hother y)

end ChainFamily

end Lib
end SystemsProjects

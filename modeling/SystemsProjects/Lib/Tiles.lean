import Mathlib

/-!
# Blocks that tile a range

A set of blocks, each with a start and a size, tiles the range from `lo` to `hi` if every
number of the range is in exactly one block.  `Tiles.split` cuts a block in two,
`Tiles.merge` makes one block of two that touch, `Tiles.extend` puts a block at the end of
the range.

A number inside a block is the start of no other block (`Tiles.notMem_of_inside`), so what is
written there changes no size.
-/

namespace SystemsProjects
namespace Lib

/-- The blocks that start at the numbers in `s` tile the range from `lo` to `hi`. -/
structure Tiles (s : Finset ℕ) (size : ℕ → ℕ) (lo hi : ℕ) : Prop where
  pos : ∀ b ∈ s, 0 < size b
  low : ∀ b ∈ s, lo ≤ b
  high : ∀ b ∈ s, b + size b ≤ hi
  apart : ∀ b ∈ s, ∀ c ∈ s, b < c → b + size b ≤ c
  covers : ∀ u, lo ≤ u → u < hi → ∃ b ∈ s, b ≤ u ∧ u < b + size b

namespace Tiles

variable {s : Finset ℕ} {size size' : ℕ → ℕ} {lo hi b c n u : ℕ}

/-- Only the sizes of the blocks matter. -/
theorem congr (h : Tiles s size lo hi) (hsize : ∀ b ∈ s, size' b = size b) :
    Tiles s size' lo hi where
  pos b hb := by
    rw [hsize b hb]
    exact h.pos b hb
  low := h.low
  high b hb := by
    rw [hsize b hb]
    exact h.high b hb
  apart b hb c hc hbc := by
    rw [hsize b hb]
    exact h.apart b hb c hc hbc
  covers u hlo hhi := by
    obtain ⟨b, hb, hbu, hub⟩ := h.covers u hlo hhi
    exact ⟨b, hb, hbu, by rwa [hsize b hb]⟩

/-- A range of no length. -/
theorem empty (lo : ℕ) (size : ℕ → ℕ) : Tiles ∅ size lo lo where
  pos b hb := absurd hb (Finset.notMem_empty b)
  low b hb := absurd hb (Finset.notMem_empty b)
  high b hb := absurd hb (Finset.notMem_empty b)
  apart b hb := absurd hb (Finset.notMem_empty b)
  covers _ hlo hhi := absurd hhi (not_lt.mpr hlo)

/-- **Inside a block no other block starts.** -/
theorem notMem_of_inside (h : Tiles s size lo hi) (hb : b ∈ s) (hbu : b < u)
    (hub : u < b + size b) : u ∉ s :=
  fun hu => absurd (h.apart b hb u hu hbu) (not_le.mpr hub)

theorem lt_high (h : Tiles s size lo hi) (hb : b ∈ s) : b < hi :=
  lt_of_lt_of_le (Nat.lt_add_of_pos_right (h.pos b hb)) (h.high b hb)

/-- **A block in two**: the second part has the size `n`. -/
theorem split (h : Tiles s size lo hi) (hb : b ∈ s) (hn : 0 < n) (hlt : n < size b)
    (hfirst : size' b = size b - n) (hsecond : size' (b + (size b - n)) = n)
    (hothers : ∀ a ∈ s, a ≠ b → size' a = size a) :
    Tiles (insert (b + (size b - n)) s) size' lo hi := by
  have hlow := h.low b hb
  have hhigh := h.high b hb
  refine ⟨fun a ha => ?_, fun a ha => ?_, fun a ha => ?_, fun a ha d hd had => ?_,
    fun u hlo hhi => ?_⟩
  · rcases Finset.mem_insert.mp ha with rfl | ha
    · rwa [hsecond]
    · by_cases hab : a = b
      · rw [hab, hfirst]
        omega
      · rw [hothers a ha hab]
        exact h.pos a ha
  · rcases Finset.mem_insert.mp ha with rfl | ha
    · omega
    · exact h.low a ha
  · rcases Finset.mem_insert.mp ha with rfl | ha
    · omega
    · by_cases hab : a = b
      · rw [hab, hfirst]
        omega
      · rw [hothers a ha hab]
        exact h.high a ha
  · rcases Finset.mem_insert.mp ha with rfl | ha
    · rcases Finset.mem_insert.mp hd with rfl | hd
      · exact absurd had (lt_irrefl _)
      · have hbefore := h.apart b hb d hd (by omega)
        omega
    · rcases Finset.mem_insert.mp hd with rfl | hd
      · by_cases hab : a = b
        · rw [hab, hfirst]
        · rw [hothers a ha hab]
          rcases Nat.lt_or_gt_of_ne hab with hlt' | hgt
          · exact (h.apart a ha b hb hlt').trans (Nat.le_add_right _ _)
          · have hbefore := h.apart b hb a ha hgt
            omega
      · have hbefore := h.apart a ha d hd had
        by_cases hab : a = b
        · rw [hab, hfirst]
          rw [hab] at hbefore
          omega
        · rwa [hothers a ha hab]
  · obtain ⟨a, ha, hau, hua⟩ := h.covers u hlo hhi
    by_cases hab : a = b
    · rw [hab] at hau hua
      by_cases hu : u < b + (size b - n)
      · exact ⟨b, Finset.mem_insert_of_mem hb, hau, by rwa [hfirst]⟩
      · exact ⟨_, Finset.mem_insert_self _ _, not_lt.mp hu, by omega⟩
    · exact ⟨a, Finset.mem_insert_of_mem ha, hau, by rwa [hothers a ha hab]⟩

/-- **Two blocks that touch become one.** -/
theorem merge (h : Tiles s size lo hi) (hb : b ∈ s) (hc : c ∈ s) (htouch : b + size b = c)
    (hsize : size' b = size b + size c)
    (hothers : ∀ a ∈ s, a ≠ b → a ≠ c → size' a = size a) :
    Tiles (s.erase c) size' lo hi := by
  have hpos := h.pos b hb
  have hend := h.high c hc
  refine ⟨fun a ha => ?_, fun a ha => h.low a (Finset.mem_of_mem_erase ha), fun a ha => ?_,
    fun a ha d hd had => ?_, fun u hlo hhi => ?_⟩
  · obtain ⟨hac, ha⟩ := Finset.mem_erase.mp ha
    by_cases hab : a = b
    · rw [hab, hsize]
      exact Nat.add_pos_left hpos _
    · rw [hothers a ha hab hac]
      exact h.pos a ha
  · obtain ⟨hac, ha⟩ := Finset.mem_erase.mp ha
    by_cases hab : a = b
    · rw [hab, hsize]
      omega
    · rw [hothers a ha hab hac]
      exact h.high a ha
  · obtain ⟨hac, ha⟩ := Finset.mem_erase.mp ha
    obtain ⟨hdc, hd⟩ := Finset.mem_erase.mp hd
    have hbefore := h.apart a ha d hd had
    by_cases hab : a = b
    · have hafter := h.apart c hc d hd (by rw [hab] at hbefore; omega)
      rw [hab, hsize]
      omega
    · rwa [hothers a ha hab hac]
  · obtain ⟨a, ha, hau, hua⟩ := h.covers u hlo hhi
    by_cases hac : a = c
    · rw [hac] at hau hua
      exact ⟨b, Finset.mem_erase.mpr ⟨by omega, hb⟩, by omega, by rw [hsize]; omega⟩
    · by_cases hab : a = b
      · rw [hab] at hau hua
        exact ⟨b, Finset.mem_erase.mpr ⟨by omega, hb⟩, hau, by rw [hsize]; omega⟩
      · exact ⟨a, Finset.mem_erase.mpr ⟨hac, ha⟩, hau, by rwa [hothers a ha hab hac]⟩

/-- **A new block at the end of the range.** -/
theorem extend (h : Tiles s size lo hi) (hle : lo ≤ hi) (hn : 0 < n) (hsize : size' hi = n)
    (hothers : ∀ a ∈ s, size' a = size a) : Tiles (insert hi s) size' lo (hi + n) := by
  refine ⟨fun a ha => ?_, fun a ha => ?_, fun a ha => ?_, fun a ha d hd had => ?_,
    fun u hlo hhi => ?_⟩
  · rcases Finset.mem_insert.mp ha with rfl | ha
    · rwa [hsize]
    · rw [hothers a ha]
      exact h.pos a ha
  · rcases Finset.mem_insert.mp ha with rfl | ha
    · exact hle
    · exact h.low a ha
  · rcases Finset.mem_insert.mp ha with rfl | ha
    · rw [hsize]
    · rw [hothers a ha]
      exact (h.high a ha).trans (Nat.le_add_right _ _)
  · rcases Finset.mem_insert.mp ha with hnew | hold
    · rcases Finset.mem_insert.mp hd with rfl | hd
      · exact absurd had (not_lt.mpr hnew.ge)
      · exact absurd (h.lt_high hd) (not_lt.mpr (hnew ▸ had.le))
    · rw [hothers a hold]
      rcases Finset.mem_insert.mp hd with rfl | hd
      · exact h.high a hold
      · exact h.apart a hold d hd had
  · by_cases hu : u < hi
    · obtain ⟨a, ha, hau, hua⟩ := h.covers u hlo hu
      exact ⟨a, Finset.mem_insert_of_mem ha, hau, by rwa [hothers a ha]⟩
    · exact ⟨hi, Finset.mem_insert_self _ _, not_lt.mp hu, by rwa [hsize]⟩

end Tiles

end Lib
end SystemsProjects

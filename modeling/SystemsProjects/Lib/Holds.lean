import Mathlib

/-!
# Who holds which block

Blocks are handed out to slots.  A block is in use if it is one of the `base`, which no slot ever
holds, or if some slot holds it; and no two slots hold the same block.  A slot that holds nothing
may take a block that is not in use, and slots may give their blocks back.
-/

namespace SystemsProjects
namespace Lib

open Function

variable {σ β : Type*}

/-- **Each block in use has one holder**, or belongs to the base. -/
structure SoleHolder (base used : β → Prop) (slot : σ → Option β) : Prop where
  injective : ∀ s t b, slot s = some b → slot t = some b → s = t
  fresh : ∀ s b, slot s = some b → ¬ base b
  used_iff : ∀ b, used b ↔ base b ∨ ∃ s, slot s = some b

namespace SoleHolder

variable {base used used' : β → Prop} {slot : σ → Option β} {s : σ} {b : β}

theorem used_of_slot (h : SoleHolder base used slot) (hs : slot s = some b) : used b :=
  (h.used_iff b).mpr (Or.inr ⟨s, hs⟩)

theorem take [DecidableEq σ] (h : SoleHolder base used slot) (hs : slot s = none) (hb : ¬ used b)
    (hused : ∀ c, used' c ↔ used c ∨ c = b) : SoleHolder base used' (update slot s (some b)) := by
  obtain ⟨hinjective, hfresh, hiff⟩ := h
  have hbase : ¬ base b := fun h => hb ((hiff b).mpr (Or.inl h))
  have hnone : ∀ t, slot t ≠ some b := fun t ht => hb ((hiff b).mpr (Or.inr ⟨t, ht⟩))
  refine ⟨fun t u c ht hu => ?_, fun t c ht => ?_, fun c => ?_⟩
  · grind
  · grind
  · rw [hused, hiff]
    constructor
    · rintro ((hc | ⟨t, ht⟩) | rfl)
      · exact Or.inl hc
      · refine Or.inr ⟨t, ?_⟩
        grind
      · exact Or.inr ⟨s, update_self s (some c) slot⟩
    · rintro (hc | ⟨t, ht⟩)
      · exact Or.inl (Or.inl hc)
      · grind

/-- The slots in `P` give their blocks back. -/
theorem release_slots (h : SoleHolder base used slot) (P : σ → Prop) [DecidablePred P]
    (hused : ∀ c, used' c ↔ used c ∧ ¬ ∃ s, P s ∧ slot s = some c) :
    SoleHolder base used' fun s => if P s then none else slot s := by
  obtain ⟨hinjective, hfresh, hiff⟩ := h
  refine ⟨fun t u c ht hu => ?_, fun t c ht => ?_, fun c => ?_⟩
  · grind
  · grind
  · rw [hused, hiff]
    constructor
    · rintro ⟨hc | ⟨t, ht⟩, hnot⟩
      · exact Or.inl hc
      · exact Or.inr ⟨t, by rw [if_neg fun hP => hnot ⟨t, hP, ht⟩, ht]⟩
    · rintro (hc | ⟨t, ht⟩)
      · refine ⟨Or.inl hc, ?_⟩
        rintro ⟨s, -, hs⟩
        exact hfresh s c hs hc
      · split_ifs at ht with hP
        refine ⟨Or.inr ⟨t, ht⟩, ?_⟩
        rintro ⟨s, hs, hslot⟩
        exact hP (hinjective s t c hslot ht ▸ hs)

end SoleHolder

end Lib
end SystemsProjects

import Mathlib

/-!
# Best fit, and the places that other demands need

Demands of some size are served by places of some capacity, one place for each demand.
`Assigned cap free ds` says that the demands `ds` can all be served by free places: there
are distinct ones, each large enough.  The order of the demands does not matter.

**The exchange argument** is `Assigned.take`.  A demand is served by a best fit, a free
place of least capacity among those that are large enough.  Then the other demands can still
be served.  If one of them had been given that place, it gets the place of the first
demand instead, which is at least as large.

Nothing is said about what happens to the place that is taken.  If a part of it is cut off
and becomes free, there is one more free place, and `Assigned.mono` applies.
-/

namespace SystemsProjects
namespace Lib

variable {δ α : Type*} [Preorder δ] {cap cap' : α → δ} {free free' : α → Prop} {d : δ}
  {ds es : List δ} {b : α}

/-- **The demands can be served** by distinct free places, each large enough. -/
def Assigned (cap : α → δ) (free : α → Prop) (ds : List δ) : Prop :=
  ∃ l : List (δ × α), (l.map Prod.fst).Perm ds ∧ (l.map Prod.snd).Nodup ∧
    ∀ e ∈ l, free e.2 ∧ e.1 ≤ cap e.2

namespace Assigned

theorem nil : Assigned cap free [] :=
  ⟨[], List.Perm.nil, List.nodup_nil, fun _ he => absurd he List.not_mem_nil⟩

/-- The demands may come in any order. -/
theorem perm (h : Assigned cap free ds) (hperm : ds.Perm es) : Assigned cap free es := by
  obtain ⟨l, hl, hnodup, hall⟩ := h
  exact ⟨l, hl.trans hperm, hnodup, hall⟩

/-- Free places that stay free and do not shrink. -/
theorem mono (h : Assigned cap free ds) (hfree : ∀ a, free a → free' a)
    (hcap : ∀ a, free a → cap a ≤ cap' a) : Assigned cap' free' ds := by
  obtain ⟨l, hl, hnodup, hall⟩ := h
  refine ⟨l, hl, hnodup, fun e he => ?_⟩
  obtain ⟨hfe, hle⟩ := hall e he
  exact ⟨hfree _ hfe, hle.trans (hcap _ hfe)⟩

/-- One more place becomes free, and serves one more demand. -/
theorem cons (h : Assigned cap free ds) (hb : ¬ free b) (hb' : free' b)
    (hfree : ∀ a, free a → free' a) (hd : d ≤ cap b) : Assigned cap free' (d :: ds) := by
  obtain ⟨l, hl, hnodup, hall⟩ := h
  refine ⟨(d, b) :: l, hl.cons d, List.nodup_cons.mpr ⟨fun hmem => ?_, hnodup⟩, fun e he => ?_⟩
  · obtain ⟨e, he, heb⟩ := List.mem_map.mp hmem
    have hfe := (hall e he).1
    rw [show e.2 = b from heb] at hfe
    exact hb hfe
  · rcases List.mem_cons.mp he with rfl | he
    · exact ⟨hb', hd⟩
    · exact ⟨hfree _ (hall e he).1, (hall e he).2⟩

/-- A demand with a place of its own, and an assignment of the others. -/
theorem exists_place (h : Assigned cap free (d :: ds)) :
    ∃ (c : α) (l : List (δ × α)), (free c ∧ d ≤ cap c) ∧ (l.map Prod.fst).Perm ds ∧
      c ∉ l.map Prod.snd ∧ (l.map Prod.snd).Nodup ∧ ∀ e ∈ l, free e.2 ∧ e.1 ≤ cap e.2 := by
  obtain ⟨l, hl, hnodup, hall⟩ := h
  obtain ⟨⟨d', c⟩, hmem, rfl⟩ := List.mem_map.mp (hl.mem_iff.mpr List.mem_cons_self)
  obtain ⟨l₁, l₂, rfl⟩ := List.append_of_mem hmem
  have hmiddle : (l₁ ++ (d', c) :: l₂).Perm ((d', c) :: (l₁ ++ l₂)) := List.perm_middle
  have hnodup' := (hmiddle.map Prod.snd).nodup_iff.mp hnodup
  rw [List.map_cons, List.nodup_cons] at hnodup'
  refine ⟨c, l₁ ++ l₂, hall _ hmem, ?_, hnodup'.1, hnodup'.2, fun e he => ?_⟩
  · exact ((hmiddle.map Prod.fst).symm.trans hl).cons_inv
  · exact hall e (hmiddle.mem_iff.mpr (List.mem_cons_of_mem _ he))

/-- **Best fit takes no place that another demand needs.** -/
theorem take (h : Assigned cap free (d :: ds))
    (hbest : ∀ c, free c → d ≤ cap c → cap b ≤ cap c) :
    Assigned cap (fun c => free c ∧ c ≠ b) ds := by
  classical
  obtain ⟨c, l, ⟨hc, hdc⟩, hl, hnotMem, hnodup, hall⟩ := h.exists_place
  -- a demand that has `b` gets `c`, the place of the first demand
  refine ⟨l.map fun e => (e.1, Equiv.swap b c e.2), ?_, ?_, fun e' he' => ?_⟩
  · rw [List.map_map]
    exact hl
  · have hswap : (l.map fun e => (e.1, Equiv.swap b c e.2)).map Prod.snd =
        (l.map Prod.snd).map (Equiv.swap b c) := by
      rw [List.map_map, List.map_map]
      rfl
    rw [hswap]
    exact hnodup.map (Equiv.swap b c).injective
  · obtain ⟨e, he, rfl⟩ := List.mem_map.mp he'
    obtain ⟨hfe, hle⟩ := hall e he
    have hec : e.2 ≠ c := fun h => hnotMem (List.mem_map.mpr ⟨e, he, h⟩)
    by_cases hb : e.2 = b
    · rw [hb, Equiv.swap_apply_left]
      refine ⟨⟨hc, fun h => hec (hb.trans h.symm)⟩, hle.trans ?_⟩
      rw [hb]
      exact hbest c hc hdc
    · rw [Equiv.swap_apply_of_ne_of_ne hb hec]
      exact ⟨⟨hfe, hb⟩, hle⟩

end Assigned

end Lib
end SystemsProjects

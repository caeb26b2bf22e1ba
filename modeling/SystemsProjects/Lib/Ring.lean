import SystemsProjects.Lib.NextChain

/-!
# Circular lists in the order of their addresses

A circular list has no first node: following `next` from any node meets all the others and
comes back.  `Circle next p l` says that from `p` these are the nodes `l`, in this order; it is
a chain that ends in `p`, and `Circle.rotate` moves to another node.

`Ring next s` adds the order: `s` is the set of the nodes, and the link of a node leads to the
next greater one, or from the greatest to the least.  A node is linked in where it belongs with
`Ring.insert`, and the node behind a given one is taken out with `Ring.remove`; where a value
belongs is said by `Ring.exists_gap`.
-/

namespace SystemsProjects
namespace Lib

variable {α : Type*} {next next' : α → α}

/-! ## Chains with another end -/

/-- The nodes in front of `q`. -/
theorem Visits.prefix_of_append {p q : α} {m : List α} :
    ∀ {l : List α} {s : α}, Visits p next s (l ++ q :: m) → Visits q next s l
  | [], _, h => h.1
  | a :: l, s, h => by
    refine ⟨h.1, fun haq => ?_, Visits.prefix_of_append h.2.2⟩
    have hnodup : (a :: (l ++ q :: m)).Nodup := h.nodup
    rw [List.nodup_cons] at hnodup
    refine hnodup.1 (List.mem_append_right _ ?_)
    rw [haq]
    exact List.mem_cons_self

/-- A chain to `p` and one from there to `q`. -/
theorem Visits.append {p q : α} {m : List α} (hpq : p ≠ q) (hm : Visits q next (next p) m) :
    ∀ {l : List α} {s : α}, Visits p next s l → q ∉ l → Visits q next s (l ++ p :: m)
  | [], _, h, _ => ⟨h, hpq, hm⟩
  | a :: l, s, h, hq => by
    rw [List.mem_cons, not_or] at hq
    exact ⟨h.1, Ne.symm hq.1, Visits.append hpq hm h.2.2 hq.2⟩

/-! ## Circular lists -/

/-- Following `next` from the node `p` meets exactly the nodes `l` and then `p` again. -/
def Circle (next : α → α) (p : α) (l : List α) : Prop := Visits p next (next p) l

namespace Circle

variable {p q n : α} {l l₁ l₂ : List α}

theorem nodup (h : Circle next p l) : (p :: l).Nodup :=
  List.nodup_cons.mpr ⟨fun hp => Visits.ne_null h hp rfl, Visits.nodup h⟩

/-- **Any node may come first.** -/
theorem rotate (h : Circle next p (l₁ ++ q :: l₂)) : Circle next q (l₂ ++ p :: l₁) := by
  have hnodup := h.nodup
  have hpq : p ≠ q := by
    rintro rfl
    exact (List.nodup_cons.mp hnodup).1 (List.mem_append_right _ List.mem_cons_self)
  have hq : q ∉ l₂ := (List.nodup_cons.mp
    (List.nodup_append.mp (List.nodup_cons.mp hnodup).2).2.1).1
  exact Visits.append hpq (Visits.prefix_of_append h) (Visits.suffix h).2.2 hq

theorem exists_of_mem (h : Circle next p l) (hq : q ∈ p :: l) :
    ∃ m, Circle next q m ∧ (q :: m).Perm (p :: l) := by
  rcases List.mem_cons.mp hq with rfl | hq
  · exact ⟨l, h, List.Perm.refl _⟩
  · obtain ⟨l₁, l₂, rfl⟩ := List.append_of_mem hq
    refine ⟨l₂ ++ p :: l₁, h.rotate, ?_⟩
    rw [← List.cons_append, ← List.cons_append]
    exact List.perm_append_comm

theorem next_mem (h : Circle next p l) : next p ∈ p :: l := by
  cases l with
  | nil =>
    have hnext : next p = p := h
    rw [hnext]
    exact List.mem_cons_self
  | cons a l =>
    rw [h.1]
    exact List.mem_cons_of_mem _ List.mem_cons_self

/-- **Linking a node in behind `p`.** -/
theorem insert (h : Circle next p l) (hn : n ≠ p) (hp : next' p = n) (hlink : next' n = next p)
    (hl : ∀ a ∈ l, next' a = next a) : Circle next' p (n :: l) := by
  refine ⟨hp, hn, ?_⟩
  rw [hlink]
  exact Visits.congr h hl

/-- **Taking out the node behind `p`.** -/
theorem remove (h : Circle next p (n :: l)) (hp : next' p = next n)
    (hl : ∀ a ∈ l, next' a = next a) : Circle next' p l := by
  rw [Circle, hp]
  exact Visits.congr h.2.2 hl

end Circle

/-! ## In the order of the addresses -/

section Order

variable [LinearOrder α] {s : Finset α} {p q n : α}

/-- In the set `s`, what follows `a` is `b`: the next greater element, or the least one behind
the greatest. -/
def Follows (s : Finset α) (a b : α) : Prop :=
  (a < b ∧ ∀ c ∈ s, c ≤ a ∨ b ≤ c) ∨ (b ≤ a ∧ ∀ c ∈ s, b ≤ c ∧ c ≤ a)

namespace Follows

variable {a b c : α}

theorem mono (h : Follows s a b) {t : Finset α} (hts : t ⊆ s) : Follows t a b :=
  h.imp (fun h => ⟨h.1, fun c hc => h.2 c (hts hc)⟩) fun h => ⟨h.1, fun c hc => h.2 c (hts hc)⟩

/-- A new element behind `p`, in front of what followed `p`. -/
theorem insert_new (h : Follows s p b) (hpn : p < n) (hgap : n < b ∨ b ≤ p) :
    Follows (insert n s) n b := by
  rcases h with ⟨hlt, hall⟩ | ⟨hle, hall⟩
  · refine Or.inl ⟨hgap.resolve_right (not_le.mpr hlt), fun c hc => ?_⟩
    rcases Finset.mem_insert.mp hc with rfl | hc
    · exact Or.inl (le_refl c)
    · exact (hall c hc).imp (fun h => h.trans hpn.le) id
  · refine Or.inr ⟨hle.trans hpn.le, fun c hc => ?_⟩
    rcases Finset.mem_insert.mp hc with rfl | hc
    · exact ⟨hle.trans hpn.le, le_refl c⟩
    · exact ⟨(hall c hc).1, (hall c hc).2.trans hpn.le⟩

theorem insert_behind (h : Follows s p b) (hpn : p < n) (hgap : n < b ∨ b ≤ p) :
    Follows (insert n s) p n := by
  refine Or.inl ⟨hpn, fun c hc => ?_⟩
  rcases Finset.mem_insert.mp hc with rfl | hc
  · exact Or.inr (le_refl c)
  · rcases h with ⟨hlt, hall⟩ | ⟨-, hall⟩
    · exact (hall c hc).imp id fun h => (hgap.resolve_right (not_le.mpr hlt)).le.trans h
    · exact Or.inl (hall c hc).2

/-- What is below `n` or above, seen from an element that is not `p`. -/
theorem side (h : Follows s p b) (hgap : n < b ∨ b ≤ p) (ha : a ∈ s) (hpa : p < a) : n ≤ a := by
  rcases h with ⟨hlt, hall⟩ | ⟨-, hall⟩
  · exact (hgap.resolve_right (not_le.mpr hlt)).le.trans
      ((hall a ha).resolve_left (not_le.mpr hpa))
  · exact absurd (hall a ha).2 (not_le.mpr hpa)

theorem insert_other (h : Follows s p b) (hpn : p < n) (hgap : n < b ∨ b ≤ p) (hp : p ∈ s)
    (ha : a ∈ s) (hap : a ≠ p) (hac : Follows s a c) : Follows (insert n s) a c := by
  rcases hac with ⟨hlt, hall⟩ | ⟨hle, hall⟩
  · refine Or.inl ⟨hlt, fun d hd => ?_⟩
    rcases Finset.mem_insert.mp hd with rfl | hd
    · rcases hall p hp with hpa | hcp
      · exact Or.inl (h.side hgap ha (lt_of_le_of_ne hpa hap.symm))
      · exact Or.inr (hcp.trans hpn.le)
    · exact hall d hd
  · refine Or.inr ⟨hle, fun d hd => ?_⟩
    rcases Finset.mem_insert.mp hd with rfl | hd
    · exact ⟨(hall p hp).1.trans hpn.le,
        h.side hgap ha (lt_of_le_of_ne (hall p hp).2 hap.symm)⟩
    · exact hall d hd

/-- An element is taken out from behind `p`. -/
theorem erase_behind (h : Follows s p n) (hn : Follows s n c) (hp : p ∈ s) (hc : c ∈ s)
    (hne : n ≠ p) : Follows (s.erase n) p c := by
  rcases h with ⟨hlt, hall⟩ | ⟨hle, hall⟩
  · rcases hn with ⟨hlt', hall'⟩ | ⟨-, hall'⟩
    · refine Or.inl ⟨hlt.trans hlt', fun d hd => ?_⟩
      obtain ⟨hdn, hd⟩ := Finset.mem_erase.mp hd
      refine (hall d hd).imp id fun h => (hall' d hd).resolve_left ?_
      exact not_le.mpr (lt_of_le_of_ne h hdn.symm)
    · refine Or.inr ⟨(hall' p hp).1, fun d hd => ?_⟩
      obtain ⟨hdn, hd⟩ := Finset.mem_erase.mp hd
      exact ⟨(hall' d hd).1, (hall d hd).resolve_right
        (not_le.mpr (lt_of_le_of_ne (hall' d hd).2 hdn))⟩
  · have hnp : n < p := lt_of_le_of_ne hle hne
    rcases hn with ⟨-, hall'⟩ | ⟨-, hall'⟩
    · refine Or.inr ⟨(hall c hc).2, fun d hd => ?_⟩
      obtain ⟨hdn, hd⟩ := Finset.mem_erase.mp hd
      exact ⟨(hall' d hd).resolve_left
        (not_le.mpr (lt_of_le_of_ne (hall d hd).1 hdn.symm)), (hall d hd).2⟩
    · exact absurd (hall' p hp).2 (not_le.mpr hnp)

end Follows

/-- A circular list with the nodes `s`, in their order. -/
structure Ring (next : α → α) (s : Finset α) : Prop where
  circle : ∀ p ∈ s, ∃ l, Circle next p l ∧ (p :: l).toFinset = s
  ordered : ∀ a ∈ s, Follows s a (next a)

/-- It is enough to go round once. -/
theorem Ring.of_circle {l : List α} (h : Circle next p l) (hs : (p :: l).toFinset = s)
    (hordered : ∀ a ∈ s, Follows s a (next a)) : Ring next s where
  circle q hq := by
    rw [← hs, List.mem_toFinset] at hq
    obtain ⟨m, hm, hperm⟩ := h.exists_of_mem hq
    exact ⟨m, hm, by rw [List.toFinset_eq_of_perm _ _ hperm, hs]⟩
  ordered := hordered

/-- A list with one node. -/
theorem Ring.singleton (h : next p = p) : Ring next {p} := by
  refine Ring.of_circle (p := p) (l := []) h rfl fun a ha => Or.inr ?_
  obtain rfl := Finset.mem_singleton.mp ha
  rw [h]
  refine ⟨le_refl a, fun c hc => ?_⟩
  rw [Finset.mem_singleton.mp hc]
  exact ⟨le_refl a, le_refl a⟩

theorem Ring.next_mem (h : Ring next s) (hp : p ∈ s) : next p ∈ s := by
  obtain ⟨l, hl, hs⟩ := h.circle p hp
  rw [← hs, List.mem_toFinset]
  exact hl.next_mem

/-- A node is not linked to itself if there is another one. -/
theorem Ring.next_ne (h : Ring next s) (hp : p ∈ s) (hq : q ∈ s) (hne : q ≠ p) :
    next p ≠ p := by
  obtain ⟨l, hl, hs⟩ := h.circle p hp
  intro hnext
  cases l with
  | nil =>
    rw [← hs, List.mem_toFinset, List.mem_singleton] at hq
    exact hne hq
  | cons a l =>
    exact hl.2.1 (hl.1.symm.trans hnext)

/-- **Where a value belongs**: behind the greatest node below it. -/
theorem Ring.exists_gap (h : Ring next s) (hq : q ∈ s) (hqn : q < n) (hn : n ∉ s) :
    ∃ p ∈ s, p < n ∧ (n < next p ∨ next p ≤ p) := by
  obtain ⟨p, hp, hmax⟩ := (s.filter (· < n)).exists_max_image id
    ⟨q, Finset.mem_filter.mpr ⟨hq, hqn⟩⟩
  obtain ⟨hp, hpn⟩ := Finset.mem_filter.mp hp
  refine ⟨p, hp, hpn, ?_⟩
  by_contra hnot
  obtain ⟨hle, hlt⟩ := not_or.mp hnot
  have hnext := h.next_mem hp
  have hne : next p ≠ n := fun heq => hn (heq ▸ hnext)
  have hbelow : next p < n := lt_of_le_of_ne (not_lt.mp hle) hne
  exact hlt (hmax _ (Finset.mem_filter.mpr ⟨hnext, hbelow⟩))

/-- **Linking a node in** where it belongs. -/
theorem Ring.insert (h : Ring next s) (hp : p ∈ s) (hpn : p < n)
    (hgap : n < next p ∨ next p ≤ p) (hlink : next' p = n) (hnew : next' n = next p)
    (hothers : ∀ a ∈ s, a ≠ p → next' a = next a) : Ring next' (Insert.insert n s) := by
  obtain ⟨l, hl, hs⟩ := h.circle p hp
  have hmem : ∀ a ∈ l, a ∈ s := by
    intro a ha
    rw [← hs, List.mem_toFinset]
    exact List.mem_cons_of_mem _ ha
  have hne : ∀ a ∈ l, a ≠ p := fun a ha hap => (List.nodup_cons.mp hl.nodup).1 (hap ▸ ha)
  have hfollows := h.ordered p hp
  refine Ring.of_circle (p := p) (l := n :: l)
    (hl.insert (ne_of_gt hpn) hlink hnew fun a ha => hothers a (hmem a ha) (hne a ha)) ?_ ?_
  · rw [← hs]
    simp only [List.toFinset_cons]
    exact Finset.insert_comm p n _
  · intro a ha
    rcases Finset.mem_insert.mp ha with rfl | has
    · rw [hnew]
      exact hfollows.insert_new hpn hgap
    · by_cases hap : a = p
      · rw [hap, hlink]
        exact hfollows.insert_behind hpn hgap
      · rw [hothers a has hap]
        exact hfollows.insert_other hpn hgap hp has hap (h.ordered a has)

/-- **Taking out the node behind `p`.** -/
theorem Ring.remove (h : Ring next s) (hp : p ∈ s) (hne : next p ≠ p)
    (hlink : next' p = next (next p))
    (hothers : ∀ a ∈ s, a ≠ p → a ≠ next p → next' a = next a) :
    Ring next' (s.erase (next p)) := by
  obtain ⟨l, hl, hs⟩ := h.circle p hp
  have hfirst := h.ordered p hp
  have hns := h.next_mem hp
  cases l with
  | nil => exact absurd hl hne
  | cons n l =>
    have hn : next p = n := hl.1
    rw [hn] at hne hlink hothers hfirst hns ⊢
    have hnodup := hl.nodup
    rw [List.nodup_cons, List.nodup_cons, List.mem_cons, not_or] at hnodup
    have hmem : ∀ a ∈ l, a ∈ s := by
      intro a ha
      rw [← hs, List.mem_toFinset]
      exact List.mem_cons_of_mem _ (List.mem_cons_of_mem _ ha)
    refine Ring.of_circle (p := p) (l := l) (hl.remove hlink fun a ha =>
      hothers a (hmem a ha) (fun hap => hnodup.1.2 (hap ▸ ha)) fun han => hnodup.2.1 (han ▸ ha))
      ?_ ?_
    · rw [← hs, List.toFinset_cons, List.toFinset_cons, List.toFinset_cons,
        Finset.erase_insert_of_ne hne.symm, Finset.erase_insert]
      rw [List.mem_toFinset]
      exact hnodup.2.1
    · intro a ha
      obtain ⟨han, has⟩ := Finset.mem_erase.mp ha
      by_cases hap : a = p
      · rw [hap, hlink]
        exact hfirst.erase_behind (h.ordered n hns) hp (h.next_mem hns) hne
      · rw [hothers a has hap han]
        exact (h.ordered a has).mono (Finset.erase_subset _ _)

/-- The links of the nodes are all that matters. -/
theorem Ring.congr (h : Ring next s) (hnext : ∀ a ∈ s, next' a = next a) : Ring next' s where
  circle p hp := by
    obtain ⟨l, hl, hs⟩ := h.circle p hp
    refine ⟨l, ?_, hs⟩
    rw [Circle, hnext p hp]
    refine Visits.congr hl fun a ha => hnext a ?_
    rw [← hs, List.mem_toFinset]
    exact List.mem_cons_of_mem _ ha
  ordered a ha := by
    rw [hnext a ha]
    exact h.ordered a ha

end Order

end Lib
end SystemsProjects

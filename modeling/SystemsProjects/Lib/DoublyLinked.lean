import SystemsProjects.Lib.NextChain

/-!
# Circular lists with links in both directions

A circular list through a header: from `head` the links `next` lead through the elements and
back to `head`, and the links `prev` lead through them in the other direction.  `Deque m head l`
says that the list is `l`.

`Links.unlink` takes an element out, wherever it is, and `Links.pushFront` puts one behind the
header; both write four links at most, and read none but those of the element and of the header.
`Deque.visits_next` and `Deque.visits_prev` are for loops that go through the list.
-/

namespace SystemsProjects
namespace Lib

open Function

variable {α : Type*}

/-! ## Neighbours -/

/-- Each element of a list is linked to the one behind it, and that one back to it. -/
def Linked (next prev : α → α) : List α → Prop
  | x :: y :: l => next x = y ∧ prev y = x ∧ Linked next prev (y :: l)
  | _ => True

variable {next prev next' prev' : α → α}

theorem linked_append {x : α} {m : List α} :
    ∀ {l : List α}, Linked next prev (l ++ x :: m) ↔
      Linked next prev (l ++ [x]) ∧ Linked next prev (x :: m)
  | [] => ⟨fun h => ⟨trivial, h⟩, And.right⟩
  | [a] => by
    simp only [List.cons_append, List.nil_append, Linked, and_true, and_assoc]
  | a :: b :: l => by
    have ih := linked_append (x := x) (m := m) (l := b :: l)
    simp only [List.cons_append, Linked] at ih ⊢
    rw [ih, and_assoc, and_assoc]

/-- The last element needs no `next`, and the first one no `prev`. -/
theorem Linked.congr : ∀ {l : List α}, Linked next prev l →
    (∀ a ∈ l.dropLast, next' a = next a) → (∀ a ∈ l.tail, prev' a = prev a) → Linked next' prev' l
  | [], _, _, _ => trivial
  | [_], _, _, _ => trivial
  | x :: y :: l, h, hnext, hprev => by
    refine ⟨(hnext x List.mem_cons_self).trans h.1, (hprev y List.mem_cons_self).trans h.2.1,
      h.2.2.congr (fun a ha => hnext a (List.mem_cons_of_mem _ ha)) fun a ha => ?_⟩
    exact hprev a (List.mem_cons_of_mem _ ha)

/-- **In the other direction** the links change places. -/
theorem Linked.reverse : ∀ {l : List α}, Linked next prev l → Linked prev next l.reverse
  | [], _ => trivial
  | [_], _ => trivial
  | x :: y :: l, h => by
    have ih : Linked prev next (l.reverse ++ [y]) := by
      rw [← List.reverse_cons]
      exact h.2.2.reverse
    rw [List.reverse_cons, List.reverse_cons, List.append_assoc]
    exact linked_append.mpr ⟨ih, h.2.1, h.1, trivial⟩

/-- Links that lead to `z` are a chain that ends there. -/
theorem Linked.visits {z : α} : ∀ {l : List α} {x : α}, Linked next prev (x :: (l ++ [z])) →
    z ∉ l → Visits z next (next x) l
  | [], _, h, _ => h.1
  | a :: l, x, h, hz => by
    rw [List.mem_cons, not_or] at hz
    exact ⟨h.1, Ne.symm hz.1, Linked.visits h.2.2 hz.2⟩

/-! ## Lists with a header -/

/-- The links of all the elements. -/
structure Links (α : Type*) where
  next : α → α
  prev : α → α

/-- **The elements of the list**, in the direction of `next`. -/
structure Deque (m : Links α) (head : α) (l : List α) : Prop where
  nodup : (head :: l).Nodup
  linked : Linked m.next m.prev (head :: (l ++ [head]))

variable {m : Links α} {head b : α} {l l₁ l₂ : List α}

theorem Deque.visits_next (h : Deque m head l) : Visits head m.next (m.next head) l :=
  h.linked.visits (List.nodup_cons.mp h.nodup).1

theorem Deque.visits_prev (h : Deque m head l) : Visits head m.prev (m.prev head) l.reverse := by
  have hreverse := h.linked.reverse
  rw [List.reverse_cons, List.reverse_append] at hreverse
  have hlinked : Linked m.prev m.next (head :: (l.reverse ++ [head])) := hreverse
  exact hlinked.visits fun hmem => (List.nodup_cons.mp h.nodup).1 (List.mem_reverse.mp hmem)

/-- A header without elements. -/
theorem Deque.nil (hnext : m.next head = head) (hprev : m.prev head = head) : Deque m head [] :=
  ⟨List.nodup_singleton head, hnext, hprev, trivial⟩

variable [DecidableEq α]

/-- `b->next->prev = b->prev; b->prev->next = b->next` -/
def Links.unlink (m : Links α) (b : α) : Links α :=
  let prev := update m.prev (m.next b) (m.prev b)
  ⟨update m.next (prev b) (m.next b), prev⟩

/-- `b->next = head.next; b->prev = &head; head.next->prev = b; head.next = b` -/
def Links.pushFront (m : Links α) (head b : α) : Links α :=
  let next := update m.next b (m.next head)
  let prev := update m.prev b head
  ⟨update next head b, update prev (next head) b⟩

/-- **An element is taken out.** -/
theorem Deque.unlink (h : Deque m head (l₁ ++ b :: l₂)) : Deque (m.unlink b) head (l₁ ++ l₂) := by
  -- the neighbours of `b`: the last of what is in front, the first of what is behind
  obtain ⟨a, x, hax⟩ : ∃ a x, head :: l₁ = a ++ [x] :=
    ⟨_, _, (List.dropLast_append_getLast (List.cons_ne_nil head l₁)).symm⟩
  obtain ⟨y, c, hyc⟩ : ∃ y c, l₂ ++ [head] = y :: c :=
    List.exists_cons_of_ne_nil (List.append_ne_nil_of_right_ne_nil l₂ (List.cons_ne_nil head []))
  have hnodup := h.nodup
  have hlinked := h.linked
  rw [List.append_assoc, List.cons_append, hyc, ← List.cons_append, hax, List.append_assoc,
    List.singleton_append, linked_append] at hlinked
  obtain ⟨hfront, hxb, hbx, hby, hyb, hback⟩ := hlinked
  rw [← List.cons_append, hax] at hnodup
  obtain ⟨hnodup₁, hnodup₂, hdisjoint⟩ := List.nodup_append.mp hnodup
  have hb₂ : b ∉ l₂ := (List.nodup_cons.mp hnodup₂).1
  have hne : b ≠ y := by
    rintro rfl
    have hmem : b ∈ l₂ ++ [head] := by
      rw [hyc]
      exact List.mem_cons_self
    rcases List.mem_append.mp hmem with hmem | hmem
    · exact hb₂ hmem
    · refine hdisjoint head ?_ b List.mem_cons_self (List.mem_singleton.mp hmem).symm
      rw [← hax]
      exact List.mem_cons_self
  have hlinks : m.unlink b = ⟨update m.next x y, update m.prev y x⟩ := by
    rw [Links.unlink, hby, hbx]
    simp only [update_of_ne hne, hbx]
  refine ⟨?_, ?_⟩
  · rw [← List.cons_append, hax]
    exact List.nodup_append.mpr ⟨hnodup₁, (List.nodup_cons.mp hnodup₂).2,
      fun u hu v hv => hdisjoint u hu v (List.mem_cons_of_mem _ hv)⟩
  · rw [hlinks, List.append_assoc, hyc, ← List.cons_append, hax, List.append_assoc,
      List.singleton_append, linked_append]
    refine ⟨hfront.congr (fun u hu => update_of_ne ?_ _ _) fun u hu => update_of_ne ?_ _ _,
      update_self _ _ _, update_self _ _ _,
      hback.congr (fun u hu => update_of_ne ?_ _ _) fun u hu => update_of_ne ?_ _ _⟩
    · rintro rfl
      rw [List.dropLast_concat] at hu
      exact (List.nodup_append.mp hnodup₁).2.2 u hu u List.mem_cons_self rfl
    · rintro rfl
      rw [← hax, List.tail_cons] at hu
      have hmem : u ∈ l₂ ++ [head] := by
        rw [hyc]
        exact List.mem_cons_self
      rcases List.mem_append.mp hmem with hmem | hmem
      · refine hdisjoint u ?_ u (List.mem_cons_of_mem _ hmem) rfl
        rw [← hax]
        exact List.mem_cons_of_mem _ hu
      · rw [List.mem_singleton.mp hmem] at hu
        rw [← hax] at hnodup₁
        exact (List.nodup_cons.mp hnodup₁).1 hu
    · rintro rfl
      rw [← hyc, List.dropLast_concat] at hu
      exact hdisjoint u (List.mem_append_right _ List.mem_cons_self) u
        (List.mem_cons_of_mem _ hu) rfl
    · rintro rfl
      rw [List.tail_cons] at hu
      have hnodup' : (u :: c).Nodup := by
        rw [← hyc]
        refine List.nodup_append.mpr ⟨(List.nodup_cons.mp hnodup₂).2, List.nodup_singleton head,
          fun v hv w hw => ?_⟩
        rw [List.mem_singleton.mp hw]
        rintro rfl
        refine hdisjoint v ?_ v (List.mem_cons_of_mem _ hv) rfl
        rw [← hax]
        exact List.mem_cons_self
      exact (List.nodup_cons.mp hnodup').1 hu

/-- **An element is put behind the header.** -/
theorem Deque.pushFront (h : Deque m head l) (hb : b ∉ head :: l) :
    Deque (m.pushFront head b) head (b :: l) := by
  rw [List.mem_cons, not_or] at hb
  obtain ⟨y, c, hyc⟩ : ∃ y c, l ++ [head] = y :: c :=
    List.exists_cons_of_ne_nil (List.append_ne_nil_of_right_ne_nil l (List.cons_ne_nil head []))
  have hhead := (List.nodup_cons.mp h.nodup).1
  have hlinked := h.linked
  rw [hyc] at hlinked
  obtain ⟨hnext, -, hrest⟩ := hlinked
  have hmem : ∀ a ∈ y :: c, a ∈ l ∨ a = head := by
    intro a ha
    rw [← hyc] at ha
    exact (List.mem_append.mp ha).imp id List.mem_singleton.mp
  have hbmem : ∀ a ∈ y :: c, a ≠ b := by
    rintro a ha rfl
    exact (hmem a ha).elim hb.2 hb.1
  have hby : b ≠ y := (hbmem y List.mem_cons_self).symm
  have hfirst : update m.next b (m.next head) head = y := by
    rw [update_of_ne (Ne.symm hb.1), hnext]
  have hlinks : m.pushFront head b =
      ⟨update (update m.next b y) head b, update (update m.prev b head) y b⟩ := by
    rw [Links.pushFront, hfirst, hnext]
  have hnodup : (y :: c).Nodup := by
    rw [← hyc]
    refine List.nodup_append.mpr ⟨(List.nodup_cons.mp h.nodup).2, List.nodup_singleton head,
      fun v hv w hw => ?_⟩
    rw [List.mem_singleton.mp hw]
    rintro rfl
    exact hhead hv
  refine ⟨?_, ?_⟩
  · rw [List.nodup_cons, List.mem_cons, not_or]
    exact ⟨⟨Ne.symm hb.1, hhead⟩, List.nodup_cons.mpr ⟨hb.2, (List.nodup_cons.mp h.nodup).2⟩⟩
  · rw [hlinks, List.cons_append, hyc]
    refine ⟨update_self _ _ _, ?_, ?_, update_self _ _ _,
      hrest.congr (fun u hu => ?_) fun u hu => ?_⟩
    · exact (update_of_ne hby _ _).trans (update_self _ _ _)
    · exact (update_of_ne hb.1 _ _).trans (update_self _ _ _)
    · have hul : u ∈ l := by
        rw [← hyc, List.dropLast_concat] at hu
        exact hu
      have huh : u ≠ head := by
        rintro rfl
        exact hhead hul
      have hub : u ≠ b := by
        rintro rfl
        exact hb.2 hul
      exact (update_of_ne huh _ _).trans (update_of_ne hub _ _)
    · rw [List.tail_cons] at hu
      have huy : u ≠ y := by
        rintro rfl
        exact (List.nodup_cons.mp hnodup).1 hu
      exact (update_of_ne huy _ _).trans
        (update_of_ne (hbmem u (List.mem_cons_of_mem _ hu)) _ _)

end Lib
end SystemsProjects

import Mathlib

/-!
# Null-terminated chains

A singly linked list in memory is a start pointer and a function `next` that
reads the link of a node.  `Visits null next p l` says that following `next`
from `p` meets exactly the nodes `l`, in order, and then `null`.  The list is
then determined by the pointer (`Visits.unique`), and it has no repetition
(`Visits.nodup`): a chain that ends cannot come back to a node.

Nothing is said about how `next` is stored.  An update of the links is a second
function `next'`, and each rule asks only how `next'` differs from `next` on the
nodes of the chain:

* `Visits.congr`: the links are the same there;
* `Visits.snoc`: a node is linked in behind the last one;
* `Visits.insert_after` and `Visits.insert_of_mem`: a node is linked in behind a given
  one;
* `Visits.unlink`: the node behind a given one is taken out.
-/

namespace SystemsProjects
namespace Lib

variable {α : Type*} {null : α} {next next' : α → α}

/-- Following `next` from `p` meets exactly the nodes `l` and then `null`. -/
def Visits (null : α) (next : α → α) : α → List α → Prop
  | p, [] => p = null
  | p, a :: l => p = a ∧ a ≠ null ∧ Visits null next (next a) l

@[simp] theorem visits_nil {p : α} : Visits null next p [] ↔ p = null := Iff.rfl

theorem Visits.ne_null : ∀ {l : List α} {p a : α},
    Visits null next p l → a ∈ l → a ≠ null
  | [], _, _, _, ha => absurd ha List.not_mem_nil
  | _ :: _, _, _, h, ha => by
    rcases List.mem_cons.mp ha with rfl | ha
    · exact h.2.1
    · exact Visits.ne_null h.2.2 ha

/-- The start pointer is `null` exactly when there is no node. -/
theorem Visits.eq_null_iff {l : List α} {p : α} (h : Visits null next p l) :
    p = null ↔ l = [] := by
  cases l with
  | nil => exact iff_of_true h rfl
  | cons a l => exact iff_of_false (by rw [h.1]; exact h.2.1) (List.cons_ne_nil a l)

/-- **The pointer determines the nodes.** -/
theorem Visits.unique : ∀ {l m : List α} {p : α},
    Visits null next p l → Visits null next p m → l = m
  | [], [], _, _, _ => rfl
  | [], _ :: _, _, h, h' => absurd (h'.1.symm.trans h) h'.2.1
  | _ :: _, [], _, h, h' => absurd (h.1.symm.trans h') h.2.1
  | a :: l, b :: m, _, h, h' => by
    have hab : a = b := h.1.symm.trans h'.1
    subst hab
    rw [Visits.unique h.2.2 h'.2.2]

/-- The nodes from a given one on are visited from it. -/
theorem Visits.suffix : ∀ {l m : List α} {p a : α},
    Visits null next p (l ++ a :: m) → Visits null next a (a :: m)
  | [], _, _, _, h => ⟨rfl, h.2⟩
  | _ :: _, _, _, _, h => Visits.suffix h.2.2

/-- **A chain that ends does not repeat a node.** -/
theorem Visits.nodup : ∀ {l : List α} {p : α}, Visits null next p l → l.Nodup
  | [], _, _ => List.nodup_nil
  | a :: l, p, h => by
    refine List.nodup_cons.mpr ⟨fun ha => ?_, Visits.nodup h.2.2⟩
    obtain ⟨l₁, l₂, rfl⟩ := List.append_of_mem ha
    have hrep : Visits null next a (a :: l₂) := Visits.suffix h.2.2
    have hwhole : Visits null next a (a :: (l₁ ++ a :: l₂)) := ⟨rfl, h.2⟩
    have hlen := congrArg List.length (Visits.unique hwhole hrep)
    simp only [List.length_cons, List.length_append] at hlen
    omega

/-- The last node links to `null`. -/
theorem Visits.next_last {l : List α} {p a : α} (h : Visits null next p (l ++ [a])) :
    next a = null :=
  (Visits.suffix h).2.2

/-- A link leads to a node of the chain or to `null`. -/
theorem Visits.next_mem {l : List α} {p a : α} (h : Visits null next p l) (ha : a ∈ l) :
    next a = null ∨ next a ∈ l := by
  obtain ⟨l₁, l₂, rfl⟩ := List.append_of_mem ha
  have hrest : Visits null next (next a) l₂ := (Visits.suffix h).2.2
  cases l₂ with
  | nil => exact Or.inl hrest
  | cons b l₂ =>
    rw [hrest.1]
    exact Or.inr (List.mem_append_right _ (List.mem_cons_of_mem _ List.mem_cons_self))

/-- A chain stays in a set that the links do not leave. -/
theorem Visits.forall_mem {P : α → Prop} (hP : ∀ a, P a → next a = null ∨ P (next a)) :
    ∀ {l : List α} {p : α}, Visits null next p l → (p = null ∨ P p) → ∀ a ∈ l, P a
  | [], _, _, _, _, ha => absurd ha List.not_mem_nil
  | b :: l, p, h, hp, a, ha => by
    obtain ⟨rfl, hne, hrest⟩ := h
    have hb := hp.resolve_left hne
    rcases List.mem_cons.mp ha with rfl | ha
    · exact hb
    · exact Visits.forall_mem hP hrest (hP _ hb) a ha

/-- A chain depends only on the links of its nodes. -/
theorem Visits.congr : ∀ {l : List α} {p : α},
    Visits null next p l → (∀ a ∈ l, next' a = next a) → Visits null next' p l
  | [], _, h, _ => h
  | a :: l, _, h, heq => by
    refine ⟨h.1, h.2.1, ?_⟩
    rw [heq a List.mem_cons_self]
    exact h.2.2.congr fun b hb => heq b (List.mem_cons_of_mem _ hb)

/-- **Linking a node in behind another.** -/
theorem Visits.insert_after {m : List α} {b n : α} (hn : n ≠ null)
    (hb : next' b = n) (hlink : next' n = next b) :
    ∀ {l : List α} {p : α}, Visits null next p (l ++ b :: m) →
      (∀ a ∈ l, next' a = next a) → (∀ a ∈ m, next' a = next a) →
      Visits null next' p (l ++ b :: n :: m)
  | [], _, h, _, hm => by
    refine ⟨h.1, h.2.1, hb, hn, ?_⟩
    rw [hlink]
    exact h.2.2.congr hm
  | a :: l, _, h, hl, hm => by
    refine ⟨h.1, h.2.1, ?_⟩
    rw [hl a List.mem_cons_self]
    exact Visits.insert_after hn hb hlink h.2.2
      (fun x hx => hl x (List.mem_cons_of_mem _ hx)) hm

/-- The same, wherever the other node is in the chain. -/
theorem Visits.insert_of_mem {l : List α} {p b n : α} (h : Visits null next p l) (hb : b ∈ l)
    (hn : n ≠ null) (hbn : next' b = n) (hlink : next' n = next b)
    (hother : ∀ a ∈ l, a ≠ b → next' a = next a) :
    ∃ l', Visits null next' p l' ∧ ∀ a, a ∈ l' ↔ a ∈ l ∨ a = n := by
  obtain ⟨l₁, l₂, rfl⟩ := List.append_of_mem hb
  have hnodup := List.nodup_append.mp h.nodup
  have hl₁ : ∀ a ∈ l₁, a ≠ b := fun a ha hab =>
    hnodup.2.2 a ha b List.mem_cons_self hab
  have hl₂ : ∀ a ∈ l₂, a ≠ b := fun a ha hab =>
    (List.nodup_cons.mp hnodup.2.1).1 (hab ▸ ha)
  refine ⟨l₁ ++ b :: n :: l₂, h.insert_after hn hbn hlink (fun a ha => ?_) fun a ha => ?_,
    fun a => ?_⟩
  · exact hother a (List.mem_append_left _ ha) (hl₁ a ha)
  · exact hother a (List.mem_append_right _ (List.mem_cons_of_mem b ha)) (hl₂ a ha)
  · simp only [List.mem_append, List.mem_cons]
    tauto

/-- **Linking a node in at the end.**  The former last node, if any, gets the new
one as its link. -/
theorem Visits.snoc {l : List α} {p b n : α} (h : Visits null next p (l ++ [b]))
    (hn : n ≠ null) (hb : next' b = n) (hlink : next' n = null)
    (hl : ∀ a ∈ l, next' a = next a) : Visits null next' p (l ++ [b] ++ [n]) := by
  rw [List.append_assoc]
  exact Visits.insert_after hn hb (by rw [hlink, h.next_last]) h hl
    fun a ha => absurd ha List.not_mem_nil

/-- **Taking out the node behind another.** -/
theorem Visits.unlink {m : List α} {b c : α} (hb : next' b = next c) :
    ∀ {l : List α} {p : α}, Visits null next p (l ++ b :: c :: m) →
      (∀ a ∈ l, next' a = next a) → (∀ a ∈ m, next' a = next a) →
      Visits null next' p (l ++ b :: m)
  | [], _, h, _, hm => by
    refine ⟨h.1, h.2.1, ?_⟩
    have hc : next b = c := h.2.2.1
    rw [hb]
    exact h.2.2.2.2.congr hm
  | a :: l, _, h, hl, hm => by
    refine ⟨h.1, h.2.1, ?_⟩
    rw [hl a List.mem_cons_self]
    exact Visits.unlink hb h.2.2 (fun x hx => hl x (List.mem_cons_of_mem _ hx)) hm

/-! ## Reaching a node -/

/-- The node `a` is met when `next` is followed from `p`. -/
inductive Reaches (null : α) (next : α → α) : α → α → Prop where
  | here {p : α} : p ≠ null → Reaches null next p p
  | there {p a : α} : p ≠ null → Reaches null next (next p) a → Reaches null next p a

theorem Visits.reaches_of_mem : ∀ {l : List α} {p a : α},
    Visits null next p l → a ∈ l → Reaches null next p a
  | [], _, _, _, ha => absurd ha List.not_mem_nil
  | b :: l, p, a, h, ha => by
    obtain ⟨rfl, hne, hrest⟩ := h
    rcases List.mem_cons.mp ha with rfl | ha
    · exact Reaches.here hne
    · exact Reaches.there hne (Visits.reaches_of_mem hrest ha)

theorem Visits.mem_of_reaches {p a : α} (hr : Reaches null next p a) :
    ∀ {l : List α}, Visits null next p l → a ∈ l := by
  induction hr with
  | here hne =>
    intro l h
    cases l with
    | nil => exact absurd h hne
    | cons b l => rw [h.1]; exact List.mem_cons_self
  | there hne _ ih =>
    intro l h
    cases l with
    | nil => exact absurd h hne
    | cons b l =>
      obtain ⟨rfl, -, hrest⟩ := h
      exact List.mem_cons_of_mem _ (ih hrest)

/-- **The nodes of a chain are the nodes reached from its start.** -/
theorem Visits.reaches_iff {l : List α} {p a : α} (h : Visits null next p l) :
    Reaches null next p a ↔ a ∈ l :=
  ⟨fun hr => Visits.mem_of_reaches hr h, fun ha => h.reaches_of_mem ha⟩

end Lib
end SystemsProjects

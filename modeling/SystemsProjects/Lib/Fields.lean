import Mathlib

/-!
# Nonempty pieces of a list

`fields p l` are the maximal runs of `l` without an element that meets `p`, in order.  The
rules follow a reader that skips delimiters and then takes a run.
-/

namespace SystemsProjects
namespace Lib

variable {α : Type*}

/-- The nonempty pieces of a list between the elements that meet `p`. -/
def fields (p : α → Bool) (l : List α) : List (List α) :=
  (l.splitOnP p).filter fun f => !f.isEmpty

@[simp] theorem fields_nil (p : α → Bool) : fields p [] = [] := by
  simp [fields]

theorem fields_cons_of_pos {p : α → Bool} {a : α} {l : List α} (h : p a) :
    fields p (a :: l) = fields p l := by
  simp [fields, List.splitOnP_cons_eq_if_modifyHead, h]

theorem fields_dropWhile (p : α → Bool) (l : List α) :
    fields p (l.dropWhile p) = fields p l := by
  induction l with
  | nil => rfl
  | cons a l ih =>
    by_cases h : p a
    · rw [List.dropWhile_cons_of_pos h, ih, fields_cons_of_pos h]
    · rw [List.dropWhile_cons_of_neg h]

/-- The first piece of a list that does not start with a delimiter. -/
theorem fields_of_not_head {p : α → Bool} {a : α} {l : List α} (h : ¬ p a) :
    fields p (a :: l) = (a :: l).takeWhile (!p ·) ::
      fields p ((a :: l).dropWhile (!p ·)).tail := by
  have htake : ∀ b ∈ (a :: l).takeWhile (!p ·), p b = false := by
    intro b hb
    simpa using List.mem_takeWhile_imp hb
  have hne : ((a :: l).takeWhile (!p ·)).isEmpty = false := by
    simp [h]
  have hl : (a :: l).takeWhile (!p ·) ++ (a :: l).dropWhile (!p ·) = a :: l :=
    List.takeWhile_append_dropWhile
  rcases hdrop : (a :: l).dropWhile (!p ·) with _ | ⟨c, t⟩
  · rw [hdrop, List.append_nil] at hl
    rw [List.tail_nil, fields_nil, hl, fields,
      List.splitOnP_eq_singleton (hl ▸ htake)]
    simp
  · have hc : p c = true := by
      have := List.head_dropWhile_not (!p ·) (l := a :: l) (by rw [hdrop]; simp)
      simpa [hdrop] using this
    rw [hdrop] at hl
    conv_lhs => rw [← hl]
    rw [fields, List.splitOnP_append_cons_of_forall_mem htake c hc, List.filter_cons,
      hne, List.tail_cons]
    rfl

/-- **Pieces on both sides of a delimiter.** -/
theorem fields_append_cons {p : α → Bool} {d : α} (hd : p d) (l m : List α) :
    fields p (l ++ d :: m) = fields p l ++ fields p m := by
  rw [fields, List.splitOnP_append_cons l m hd, List.filter_append]
  rfl

/-- A list without delimiters is one piece. -/
theorem fields_of_forall_not {p : α → Bool} {l : List α} (hl : ∀ a ∈ l, p a = false)
    (hne : l ≠ []) : fields p l = [l] := by
  rw [fields, List.splitOnP_eq_singleton hl, List.filter_cons,
    if_pos (by simpa using hne), List.filter_nil]

/-- **The first piece** in its place: delimiters in front of it, and behind it nothing, or a
delimiter and the other pieces. -/
theorem fields_eq_cons {p : α → Bool} {l f : List α} {fs : List (List α)}
    (h : fields p l = f :: fs) :
    ∃ behind, l.dropWhile p = f ++ behind ∧ f ≠ [] ∧ (f ++ behind).takeWhile (!p ·) = f ∧
      ((behind = [] ∧ fs = []) ∨ ∃ d rest, behind = d :: rest ∧ fields p rest = fs) := by
  rw [← fields_dropWhile] at h
  rcases hdrop : l.dropWhile p with _ | ⟨a, k⟩
  · rw [hdrop, fields_nil] at h
    cases h
  · have ha : ¬ p a = true := by
      have hhead := List.head_dropWhile_not p (l := l) (by rw [hdrop]; simp)
      simpa [hdrop] using hhead
    rw [hdrop, fields_of_not_head ha, List.cons.injEq] at h
    obtain ⟨hf, hfs⟩ := h
    have hsplit := List.takeWhile_append_dropWhile (p := (!p ·)) (l := a :: k)
    rw [hf] at hsplit
    refine ⟨(a :: k).dropWhile (!p ·), hsplit.symm, ?_, by rw [hsplit, hf], ?_⟩
    · rw [← hf, List.takeWhile_cons_of_pos (by simpa using ha)]
      exact List.cons_ne_nil _ _
    · rcases hbehind : (a :: k).dropWhile (!p ·) with _ | ⟨d, rest⟩
      · rw [hbehind, List.tail_nil, fields_nil] at hfs
        exact Or.inl ⟨rfl, hfs.symm⟩
      · rw [hbehind, List.tail_cons] at hfs
        exact Or.inr ⟨d, rest, rfl, hfs⟩

/-- There are not more pieces than elements. -/
theorem length_fields_le (p : α → Bool) : ∀ (n : ℕ) (l : List α), l.length ≤ n →
    (fields p l).length ≤ l.length := by
  intro n
  induction n with
  | zero =>
    intro l hl
    rw [List.length_eq_zero_iff.mp (Nat.le_zero.mp hl), fields_nil]
    exact Nat.le_refl 0
  | succ n ih =>
    intro l hl
    rcases hfields : fields p l with _ | ⟨f, fs⟩
    · exact Nat.zero_le _
    · obtain ⟨behind, hdrop, hne, -, hbehind⟩ := fields_eq_cons hfields
      have hpos := List.length_pos_iff.mpr hne
      have hlen := (List.dropWhile_sublist (l := l) p).length_le
      rw [hdrop, List.length_append] at hlen
      rw [List.length_cons]
      rcases hbehind with ⟨-, rfl⟩ | ⟨d, rest, rfl, rfl⟩
      · rw [List.length_nil]
        omega
      · rw [List.length_cons] at hlen
        have hrest := ih rest (by omega)
        omega

/-- There is a piece as soon as some element is not a delimiter. -/
theorem fields_eq_nil_iff {p : α → Bool} {l : List α} :
    fields p l = [] ↔ ∀ a ∈ l, p a := by
  induction l with
  | nil => simp
  | cons a l ih =>
    by_cases h : p a
    · rw [fields_cons_of_pos h, ih]
      simp [h]
    · rw [fields_of_not_head h]
      simp [h]

end Lib
end SystemsProjects

import Mathlib

/-!
# Writing into the middle

`blit f k l` is an array `f` after the list `l` was copied to the places from `k` on.  Copies one
behind the other are one copy; an array that is read up to some length is a list, and a copy into
it is `overwrite`, which replaces a piece of the list and may make it longer.
-/

namespace SystemsProjects
namespace Lib

variable {α : Type*}

/-- The array after `l` has been copied to the places from `k` on. -/
def blit (f : ℕ → α) (k : ℕ) (l : List α) : ℕ → α := fun x =>
  if h : k ≤ x ∧ x - k < l.length then l[x - k] else f x

/-- The list with `l` in place of what was at `k` and after it. -/
def overwrite (m : List α) (k : ℕ) (l : List α) : List α :=
  m.take k ++ l ++ m.drop (k + l.length)

section Blit

variable {f : ℕ → α} {k x : ℕ} {l m : List α}

theorem blit_of_notMem (h : x < k ∨ k + l.length ≤ x) : blit f k l x = f x :=
  dif_neg (by omega)

theorem blit_of_mem (h₀ : k ≤ x) (h₁ : x - k < l.length) : blit f k l x = l[x - k] :=
  dif_pos ⟨h₀, h₁⟩

@[simp] theorem blit_nil (f : ℕ → α) (k : ℕ) : blit f k [] = f := by
  funext x
  exact blit_of_notMem (Nat.lt_or_ge x k)

/-- Two copies, the second behind the first. -/
theorem blit_append : blit (blit f k l) (k + l.length) m = blit f k (l ++ m) := by
  funext x
  simp only [blit, List.length_append, List.getElem_append]
  grind

/-- A copy depends on the places around it only where it is read. -/
theorem blit_congr {g : ℕ → α} (h : f x = g x) : blit f k l x = blit g k l x := by
  simp only [blit, h]

end Blit

/-! ## Arrays as lists -/

/-- The first `n` places of an array. -/
def upTo (f : ℕ → α) (n : ℕ) : List α := (List.range n).map f

section UpTo

variable {f g : ℕ → α} {n k : ℕ} {l : List α}

@[simp] theorem length_upTo : (upTo f n).length = n := by
  rw [upTo, List.length_map, List.length_range]

theorem getElem_upTo {i : ℕ} (h : i < (upTo f n).length) : (upTo f n)[i] = f i := by
  simp only [upTo, List.getElem_map, List.getElem_range]

theorem upTo_congr (h : ∀ x < n, f x = g x) : upTo f n = upTo g n :=
  List.map_congr_left fun x hx => h x (List.mem_range.mp hx)

/-- **A copy into an array is one into the list.** -/
theorem upTo_blit (hk : k ≤ n) : upTo (blit f k l) (max n (k + l.length)) =
    overwrite (upTo f n) k l := by
  refine List.ext_getElem ?_ fun i h₁ h₂ => ?_
  · simp only [overwrite, List.length_append, List.length_take, List.length_drop, length_upTo]
    omega
  · rw [length_upTo] at h₁
    simp only [getElem_upTo, overwrite, List.getElem_append, List.getElem_take, List.getElem_drop,
      List.length_append, List.length_take, length_upTo, blit]
    grind

/-- A piece of the list is a piece of the array. -/
theorem take_drop_upTo {m : ℕ} (h : k + m ≤ n) :
    ((upTo f n).drop k).take m = upTo (fun x => f (k + x)) m := by
  refine List.ext_getElem ?_ fun i h₁ h₂ => ?_
  · simp only [List.length_take, List.length_drop, length_upTo]
    omega
  · simp only [List.getElem_take, List.getElem_drop, getElem_upTo]

theorem upTo_add (f : ℕ → α) (n m : ℕ) :
    upTo f (n + m) = upTo f n ++ upTo (fun x => f (n + x)) m := by
  rw [upTo, List.range_add, List.map_append, List.map_map]
  rfl

end UpTo

end Lib
end SystemsProjects

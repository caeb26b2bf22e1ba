import SystemsProjects.Lib.Prog

/-!
# Stretches of an array

The cells of an array are the integers, and a stretch of it holds a list.  `Cells m a xs` says
that `xs` stands at `a`; it splits along `++`, so that a fact about a few cells is a fact about a
piece of the list.  `between l r` are the places from `l` to `r`, none if `r < l`.
-/

namespace SystemsProjects
namespace Lib

variable {ν : Type}

/-- The places of `k` cells from `a` on. -/
def places (a : ℤ) : ℕ → List ℤ
  | 0 => []
  | k + 1 => a :: places (a + 1) k

@[simp] theorem length_places (k : ℕ) : ∀ a, (places a k).length = k := by
  induction k with
  | zero => exact fun _ => rfl
  | succ k ih => exact fun a => congrArg Nat.succ (ih (a + 1))

theorem mem_places {z : ℤ} (k : ℕ) : ∀ {a : ℤ}, z ∈ places a k ↔ a ≤ z ∧ z < a + k := by
  induction k with
  | zero => exact fun {a} => iff_of_false List.not_mem_nil (by omega)
  | succ k ih =>
    intro a
    rw [places, List.mem_cons, ih]
    push_cast
    omega

theorem nodup_places (k : ℕ) : ∀ a, (places a k).Nodup := by
  induction k with
  | zero => exact fun _ => List.nodup_nil
  | succ k ih =>
    intro a
    rw [places, List.nodup_cons, mem_places]
    exact ⟨by omega, ih (a + 1)⟩

/-- The list `xs` stands at `a`. -/
def Cells (m : ℤ → ν) (a : ℤ) (xs : List ν) : Prop := (places a xs.length).map m = xs

theorem cells_nil (m : ℤ → ν) (a : ℤ) : Cells m a [] := rfl

theorem cells_cons {m : ℤ → ν} {a : ℤ} {x : ν} {xs : List ν} :
    Cells m a (x :: xs) ↔ m a = x ∧ Cells m (a + 1) xs := by
  unfold Cells
  rw [List.length_cons, places, List.map_cons, List.cons.injEq]

theorem cells_append {m : ℤ → ν} {xs ys : List ν} : ∀ {a : ℤ},
    Cells m a (xs ++ ys) ↔ Cells m a xs ∧ Cells m (a + xs.length) ys := by
  induction xs with
  | nil =>
    intro a
    rw [List.nil_append, List.length_nil, Nat.cast_zero, add_zero]
    exact (and_iff_right (cells_nil m a)).symm
  | cons x xs ih =>
    intro a
    have hplace : a + 1 + (xs.length : ℤ) = a + ((x :: xs).length : ℕ) := by
      rw [List.length_cons]
      push_cast
      ring
    rw [List.cons_append, cells_cons, ih, cells_cons, hplace, and_assoc]

/-- What a stretch holds depends on its cells only. -/
theorem Cells.congr {m m' : ℤ → ν} {a : ℤ} {xs : List ν} (h : Cells m a xs)
    (hsame : ∀ z, a ≤ z → z < a + xs.length → m' z = m z) : Cells m' a xs := by
  refine (List.map_congr_left fun z hz => ?_).trans h
  rw [mem_places] at hz
  exact hsame z hz.1 hz.2

/-- A cell of a stretch holds one of its elements. -/
theorem Cells.mem {m : ℤ → ν} {a z : ℤ} {xs : List ν} (h : Cells m a xs) (hz : a ≤ z)
    (hz' : z < a + xs.length) : m z ∈ xs := by
  have hmem := List.mem_map_of_mem (f := m) ((mem_places xs.length).mpr ⟨hz, hz'⟩)
  rw [show (places a xs.length).map m = xs from h] at hmem
  exact hmem

/-- **An exchange of two elements** of a list. -/
theorem cells_exchanged {m : ℤ → ν} {a i j : ℤ} (l₁ l₂ l₃ : List ν) {x y : ν}
    (h : Cells m a (l₁ ++ x :: l₂ ++ y :: l₃)) (hi : i = a + l₁.length)
    (hj : j = i + 1 + l₂.length) : Cells (exchanged m i j) a (l₁ ++ y :: l₂ ++ x :: l₃) := by
  have hsame : ∀ z, z ≠ i → z ≠ j → exchanged m i j z = m z := fun z hzi hzj => by
    rw [exchanged_apply, Equiv.swap_apply_of_ne_of_ne hzi hzj]
  simp only [List.append_assoc, List.cons_append, cells_append, cells_cons] at h ⊢
  rw [← hi, ← hj] at h ⊢
  obtain ⟨h₁, hx, h₂, hy, h₃⟩ := h
  refine ⟨h₁.congr fun z _ hz => hsame z ?_ ?_, ?_, h₂.congr fun z hz hz' => hsame z ?_ ?_, ?_,
    h₃.congr fun z hz _ => hsame z ?_ ?_⟩
  · omega
  · omega
  · rw [exchanged_apply, Equiv.swap_apply_left, hy]
  · omega
  · omega
  · rw [exchanged_apply, Equiv.swap_apply_right, hx]
  · omega
  · omega

/-! ## From `l` to `r` -/

/-- The places from `l` to `r`. -/
def between (l r : ℤ) : List ℤ := places l (r - l + 1).toNat

theorem mem_between {l r z : ℤ} : z ∈ between l r ↔ l ≤ z ∧ z ≤ r := by
  unfold between
  rw [mem_places]
  omega

theorem nodup_between (l r : ℤ) : (between l r).Nodup := nodup_places _ _

/-- The elements from `l` to `r`. -/
def window (m : ℤ → ν) (l r : ℤ) : List ν := (between l r).map m

theorem length_window (m : ℤ → ν) (l r : ℤ) : (window m l r).length = (r - l + 1).toNat := by
  unfold window between
  rw [List.length_map, length_places]

theorem cells_window (m : ℤ → ν) (l r : ℤ) : Cells m l (window m l r) := by
  unfold Cells
  rw [length_window]
  rfl

end Lib
end SystemsProjects

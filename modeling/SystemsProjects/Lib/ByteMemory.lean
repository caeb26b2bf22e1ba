import SystemsProjects.Lib.Exec

/-!
# A byte-addressed memory

A memory is a byte for every address and the list of the regions that are mapped.
An object of `n` bytes is read and written at any address, lowest byte first; if
one of its bytes is in no region the access faults.

The rules say what a store does to the values that are read afterwards: the value
itself comes back, reduced to the size of the object (`value_put_self`), and an
object that does not overlap keeps its value (`value_put_of_disjoint`).
-/

namespace SystemsProjects
namespace Lib

universe u

/-- A range of addresses. -/
structure Extent where
  start : ℕ
  len : ℕ
  deriving DecidableEq, Repr

namespace Extent

/-- The first address behind the range. -/
def stop (e : Extent) : ℕ := e.start + e.len

/-- The two ranges have no byte in common. -/
def Disjoint (e f : Extent) : Prop := e.stop ≤ f.start ∨ f.stop ≤ e.start

/-- The first range lies in the second. -/
def Within (e f : Extent) : Prop := f.start ≤ e.start ∧ e.stop ≤ f.stop

instance (e f : Extent) : Decidable (Disjoint e f) :=
  inferInstanceAs (Decidable (_ ∨ _))

instance (e f : Extent) : Decidable (Within e f) :=
  inferInstanceAs (Decidable (_ ∧ _))

theorem Disjoint.symm {e f : Extent} (h : e.Disjoint f) : f.Disjoint e := Or.symm h

instance : Std.Symm Disjoint := ⟨fun _ _ h => h.symm⟩

/-- Ranges inside disjoint ranges are disjoint. -/
theorem Disjoint.of_within {e f e' f' : Extent} (h : e.Disjoint f) (he : e'.Within e)
    (hf : f'.Within f) : e'.Disjoint f' := by
  obtain ⟨he₁, he₂⟩ := he
  obtain ⟨hf₁, hf₂⟩ := hf
  rcases h with h | h
  · exact Or.inl (Nat.le_trans he₂ (Nat.le_trans h hf₁))
  · exact Or.inr (Nat.le_trans hf₂ (Nat.le_trans h he₁))

end Extent

/-! ## Values of several bytes -/

/-- The number that `n` bytes from `a` on hold, lowest byte first. -/
def value (bytes : ℕ → UInt8) (a : ℕ) : ℕ → ℕ
  | 0 => 0
  | n + 1 => (bytes a).toNat + 256 * value bytes (a + 1) n

/-- The bytes after `v` has been written to `n` bytes from `a` on. -/
def put (bytes : ℕ → UInt8) (a n v : ℕ) : ℕ → UInt8 := fun x =>
  if a ≤ x ∧ x < a + n then UInt8.ofNat (v / 256 ^ (x - a)) else bytes x

section Values

variable {bytes bytes' : ℕ → UInt8}

theorem put_of_mem {a n v x : ℕ} (h₀ : a ≤ x) (h₁ : x < a + n) :
    put bytes a n v x = UInt8.ofNat (v / 256 ^ (x - a)) :=
  if_pos ⟨h₀, h₁⟩

theorem put_of_notMem {a n v x : ℕ} (h : x < a ∨ a + n ≤ x) : put bytes a n v x = bytes x :=
  if_neg (by omega)

/-- A value depends on its own bytes only. -/
theorem value_congr : ∀ {n a : ℕ}, (∀ x, a ≤ x → x < a + n → bytes' x = bytes x) →
    value bytes' a n = value bytes a n
  | 0, _, _ => rfl
  | n + 1, a, h => by
    rw [value, value, h a (Nat.le_refl a) (by omega),
      value_congr fun x h₀ h₁ => h x (by omega) (by omega)]

/-- Bytes that are the digits of a number hold that number. -/
theorem value_of_digits : ∀ {n a v : ℕ},
    (∀ i < n, bytes (a + i) = UInt8.ofNat (v / 256 ^ i)) → value bytes a n = v % 256 ^ n
  | 0, _, v, _ => by rw [value, Nat.pow_zero, Nat.mod_one]
  | n + 1, a, v, h => by
    have hfirst : (bytes a).toNat = v % 256 := by
      have h₀ := h 0 (Nat.succ_pos n)
      rw [Nat.add_zero, Nat.pow_zero, Nat.div_one] at h₀
      rw [h₀, UInt8.toNat_ofNat']
    have hrest : value bytes (a + 1) n = v / 256 % 256 ^ n := by
      refine value_of_digits fun i hi => ?_
      rw [Nat.add_right_comm, Nat.add_assoc, h (i + 1) (Nat.succ_lt_succ hi), Nat.pow_succ',
        Nat.div_div_eq_div_mul]
    rw [value, hfirst, hrest, Nat.pow_succ', Nat.mod_mul]

theorem value_lt : ∀ {n a : ℕ}, value bytes a n < 256 ^ n
  | 0, _ => Nat.one_pos
  | n + 1, a => by
    have hfirst := (bytes a).toNat_lt
    have hrest := value_lt (n := n) (a := a + 1)
    rw [value, Nat.pow_succ']
    omega

/-- The digits of a number that bytes hold are the bytes. -/
theorem byte_of_value : ∀ {n a i : ℕ}, i < n →
    UInt8.ofNat (value bytes a n / 256 ^ i) = bytes (a + i)
  | n + 1, a, i, hi => by
    have hfirst := (bytes a).toNat_lt
    cases i with
    | zero =>
      have hmod : value bytes a (n + 1) % 256 = (bytes a).toNat := by
        rw [value]
        omega
      refine UInt8.toNat_inj.mp ?_
      rw [Nat.pow_zero, Nat.div_one, UInt8.toNat_ofNat', Nat.add_zero]
      exact hmod
    | succ i =>
      have hdiv : value bytes a (n + 1) / 256 = value bytes (a + 1) n := by
        rw [value]
        omega
      rw [Nat.pow_succ', ← Nat.div_div_eq_div_mul, hdiv, byte_of_value (Nat.lt_of_succ_lt_succ hi),
        Nat.add_right_comm, Nat.add_assoc]

/-- **What was written is read.** -/
theorem value_put_self (a n v : ℕ) : value (put bytes a n v) a n = v % 256 ^ n := by
  refine value_of_digits fun i hi => ?_
  rw [put_of_mem (Nat.le_add_right a i) (Nat.add_lt_add_left hi a), Nat.add_sub_cancel_left]

/-- **Other objects keep their values.** -/
theorem value_put_of_disjoint {a n v b k : ℕ} (h : b + k ≤ a ∨ a + n ≤ b) :
    value (put bytes a n v) b k = value bytes b k :=
  value_congr fun x h₀ h₁ => put_of_notMem (by omega)

end Values

/-! ## Memories -/

/-- The bytes, and the regions that are mapped. -/
structure Memory where
  bytes : ℕ → UInt8
  mapped : List Extent

namespace Memory

variable {ε : Type u} (m : Memory)

/-- The byte at `x` is in a mapped region. -/
def IsMapped (x : ℕ) : Prop := ∃ r ∈ m.mapped, r.start ≤ x ∧ x < r.stop

instance (x : ℕ) : Decidable (m.IsMapped x) :=
  inferInstanceAs (Decidable (∃ r ∈ m.mapped, _))

/-- All bytes of an object are mapped. -/
def Accessible (a n : ℕ) : Prop := ∀ i < n, m.IsMapped (a + i)

instance (a n : ℕ) : Decidable (m.Accessible a n) :=
  inferInstanceAs (Decidable (∀ i < n, _))

/-- Read an object of `n` bytes. -/
def load (fault : ε) (a n : ℕ) : Except ε ℕ :=
  if m.Accessible a n then pure (value m.bytes a n) else .error fault

/-- Write an object of `n` bytes. -/
def store (fault : ε) (a n v : ℕ) : Except ε Memory :=
  if m.Accessible a n then pure { m with bytes := put m.bytes a n v } else .error fault

/-- Map one more region, with the bytes that are there. -/
def map (e : Extent) : Memory := { m with mapped := e :: m.mapped }

theorem isMapped_map (e : Extent) (x : ℕ) :
    (m.map e).IsMapped x ↔ (e.start ≤ x ∧ x < e.stop) ∨ m.IsMapped x := by
  simp [IsMapped, map]

/-- An object inside a mapped region is accessible. -/
theorem accessible_of_within {a n : ℕ} {r : Extent} (hr : r ∈ m.mapped)
    (h : (⟨a, n⟩ : Extent).Within r) : m.Accessible a n := by
  intro i hi
  obtain ⟨h₀, h₁⟩ := h
  have hstop : a + n ≤ r.stop := h₁
  have hstart : r.start ≤ a := h₀
  exact ⟨r, hr, by omega, by omega⟩

end Memory

end Lib
end SystemsProjects

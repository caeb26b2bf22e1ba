import Mathlib

/-!
# Sets of numbers as bits of bytes

Number `k` is in the set if bit `k % 8` of byte `k / 8` is set.  A bit is tested, set and cleared
with a mask, and the three operations on the set are those on the numbers.
-/

namespace SystemsProjects
namespace Lib

/-! ## The bits of a byte -/

/-- `1 << i` -/
def mask (i : ℕ) : UInt8 := 1 <<< UInt8.ofNat i

/-- `x & (1 << i)` as a condition. -/
def hasBit (x : UInt8) (i : ℕ) : Bool := x &&& mask i != 0

section Bits

variable {x : UInt8} {i j : ℕ}

theorem toBitVec_mask (hi : i < 8) : (mask i).toBitVec = BitVec.twoPow 8 i := by
  interval_cases i <;> rfl

theorem hasBit_eq (hi : i < 8) : hasBit x i = x.toBitVec.getLsbD i := by
  have h : (x &&& mask i).toBitVec =
      if x.toBitVec.getLsbD i then BitVec.twoPow 8 i else 0#8 := by
    rw [UInt8.toBitVec_and, toBitVec_mask hi, BitVec.and_twoPow]
  have hne : BitVec.twoPow 8 i ≠ 0#8 := by interval_cases i <;> decide
  rw [Bool.eq_iff_iff, hasBit, bne_iff_ne, ne_eq, ← UInt8.toBitVec_inj, h]
  cases x.toBitVec.getLsbD i with
  | false => simp
  | true => simpa using hne

theorem hasBit_or (hi : i < 8) (hj : j < 8) :
    hasBit (x ||| mask i) j = (hasBit x j || decide (j = i)) := by
  rw [hasBit_eq hj, hasBit_eq hj, UInt8.toBitVec_or, toBitVec_mask hi, BitVec.getLsbD_or,
    BitVec.getLsbD_twoPow]
  grind

theorem hasBit_and_not (hi : i < 8) (hj : j < 8) :
    hasBit (x &&& ~~~ mask i) j = (hasBit x j && decide (j ≠ i)) := by
  rw [hasBit_eq hj, hasBit_eq hj, UInt8.toBitVec_and, UInt8.toBitVec_not, toBitVec_mask hi,
    BitVec.getLsbD_and, BitVec.getLsbD_not, BitVec.getLsbD_twoPow]
  grind

end Bits

/-! ## The bits of many bytes -/

namespace BitSet

/-- Bit `k` of the bitmap. -/
def get (bytes : ℕ → UInt8) (k : ℕ) : Bool := hasBit (bytes (k / 8)) (k % 8)

/-- The bitmap with bit `k` set. -/
def set (bytes : ℕ → UInt8) (k : ℕ) : ℕ → UInt8 :=
  Function.update bytes (k / 8) (bytes (k / 8) ||| mask (k % 8))

/-- The bitmap with bit `k` cleared. -/
def clear (bytes : ℕ → UInt8) (k : ℕ) : ℕ → UInt8 :=
  Function.update bytes (k / 8) (bytes (k / 8) &&& ~~~ mask (k % 8))

variable {bytes : ℕ → UInt8} {k j : ℕ}

theorem get_set : get (set bytes k) j = (get bytes j || decide (j = k)) := by
  have hk := Nat.mod_lt k (Nat.succ_pos 7)
  have hj := Nat.mod_lt j (Nat.succ_pos 7)
  rw [get, set, get]
  by_cases hbyte : j / 8 = k / 8
  · have hiff : j % 8 = k % 8 ↔ j = k := by omega
    rw [hbyte, Function.update_self, hasBit_or hk hj, decide_eq_decide.mpr hiff]
  · have hne : j ≠ k := fun h => hbyte (h ▸ rfl)
    rw [Function.update_of_ne hbyte, decide_eq_false hne, Bool.or_false]

theorem get_clear : get (clear bytes k) j = (get bytes j && decide (j ≠ k)) := by
  have hk := Nat.mod_lt k (Nat.succ_pos 7)
  have hj := Nat.mod_lt j (Nat.succ_pos 7)
  rw [get, clear, get]
  by_cases hbyte : j / 8 = k / 8
  · have hiff : j % 8 ≠ k % 8 ↔ j ≠ k := by omega
    rw [hbyte, Function.update_self, hasBit_and_not hk hj, decide_eq_decide.mpr hiff]
  · have hne : j ≠ k := fun h => hbyte (h ▸ rfl)
    rw [Function.update_of_ne hbyte, decide_eq_true hne, Bool.and_true]

end BitSet

end Lib
end SystemsProjects

import Mathlib

/-!
# Strings of C

The bytes in front of the terminating NUL.  A string of this type has no NUL
inside, so its length and its contents are what `strlen` and `strcmp` see.
-/

namespace SystemsProjects
namespace Lib

/-- The bytes of a terminated string. -/
structure CString where
  bytes : List UInt8
  nulFree : 0 ∉ bytes
  deriving DecidableEq

/-- The bytes before the terminating NUL. -/
def strlen (s : CString) : ℕ := s.bytes.length

/-- The difference at the first place where two terminated byte sequences differ. -/
def compareBytes : List UInt8 → List UInt8 → ℤ
  | [], [] => 0
  | [], b :: _ => -(b.toNat : ℤ)
  | a :: _, [] => a.toNat
  | a :: as, b :: bs => if a = b then compareBytes as bs else (a.toNat : ℤ) - b.toNat

/-- The bytes are compared as `unsigned char`. -/
def strcmp (s t : CString) : ℤ := compareBytes s.bytes t.bytes

theorem compareBytes_eq_zero_iff : ∀ {as bs : List UInt8}, 0 ∉ as → 0 ∉ bs →
    (compareBytes as bs = 0 ↔ as = bs)
  | [], [], _, _ => iff_of_true rfl rfl
  | [], b :: bs, _, hb => by
    have hne : b.toNat ≠ 0 := fun h =>
      hb (List.mem_cons.mpr (Or.inl (UInt8.toNat_inj.mp h).symm))
    rw [compareBytes]
    exact iff_of_false (by omega) (List.cons_ne_nil b bs).symm
  | a :: as, [], ha, _ => by
    have hne : a.toNat ≠ 0 := fun h =>
      ha (List.mem_cons.mpr (Or.inl (UInt8.toNat_inj.mp h).symm))
    rw [compareBytes]
    exact iff_of_false (by omega) (List.cons_ne_nil a as)
  | a :: as, b :: bs, ha, hb => by
    rw [compareBytes]
    by_cases hab : a = b
    · rw [if_pos hab, compareBytes_eq_zero_iff (fun h => ha (List.mem_cons_of_mem _ h))
        (fun h => hb (List.mem_cons_of_mem _ h)), hab, List.cons_inj_right]
    · have hne : a.toNat ≠ b.toNat := fun h => hab (UInt8.toNat_inj.mp h)
      rw [if_neg hab]
      exact iff_of_false (by omega) fun h => hab (List.cons.inj h).1

/-- **`strcmp` answers 0 on equal strings only.** -/
theorem strcmp_eq_zero_iff {s t : CString} : strcmp s t = 0 ↔ s = t := by
  rw [strcmp, compareBytes_eq_zero_iff s.nulFree t.nulFree]
  constructor
  · intro h
    cases s
    cases t
    cases h
    rfl
  · intro h
    rw [h]

end Lib
end SystemsProjects

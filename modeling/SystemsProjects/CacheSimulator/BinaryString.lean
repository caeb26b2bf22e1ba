import SystemsProjects.Lib.CInt

/-!
# Bit strings in memory: `binary.h`

A `char*` is a view of memory from the place it points to: `bin i` is the byte at
offset `i`, and a negative offset is memory in front of the string.  `strlen`
looks for the terminator; its fuel is the size of the address space, so that a
view without a terminator counts the whole of it.

`pow(2, k)` is exact for the exponents that occur.
-/

namespace SystemsProjects
namespace CacheSimulator

open Lib

/-- What a `char*` shows of memory. -/
abbrev CharPtr := ℤ → Char

/-- The terminator. -/
def nul : Char := Char.ofNat 0

/-- The first terminator at or behind offset `i`. -/
def strlenFrom (bin : CharPtr) : ℕ → ℕ → ℕ
  | 0, i => i
  | fuel + 1, i => if bin i = nul then i else strlenFrom bin fuel (i + 1)

/-- The number of characters in front of the terminator. -/
def strlen (bin : CharPtr) : ℕ := strlenFrom bin (2 ^ 64) 0

/-- The characters in front of the terminator. -/
def cString (bin : CharPtr) : List Char :=
  (List.range (strlen bin)).map fun i : ℕ => bin i

/-- The loop of `binaryStringRangeToInt`: `i` goes down and `counter` goes up. -/
def rangeLoop (bin : CharPtr) : ℕ → ℤ → ℕ → ℤ → ℤ
  | 0, _, _, sum => sum
  | n + 1, i, counter, sum =>
      rangeLoop bin n (i - 1) (counter + 1)
        (if bin i = '1' then sum + 2 ^ counter else sum)

/-- `binaryStringRangeToInt`.  The first index is an `unsigned long` difference
stored in an `int`. -/
def binaryStringRangeToInt (bin : CharPtr) (start stop : ℤ) : ℤ :=
  rangeLoop bin (stop - start + 1).toNat
    (toInt32 (toUInt64 (strlen bin - start - 1))) 0 0

/-! ## A string that is there -/

/-- The characters `s` and a terminator stand at `bin`. -/
def Shows (bin : CharPtr) (s : List Char) : Prop :=
  (∀ (i : ℕ) (c : Char), s[i]? = some c → bin i = c ∧ c ≠ nul) ∧ bin s.length = nul

theorem strlenFrom_of_shows {bin : CharPtr} {s : List Char} (h : Shows bin s) :
    ∀ {fuel i : ℕ}, i ≤ s.length → s.length < fuel + i → strlenFrom bin fuel i = s.length := by
  intro fuel
  induction fuel with
  | zero => intro i hi hfuel; omega
  | succ fuel ih =>
    intro i hi hfuel
    rw [strlenFrom]
    rcases Nat.lt_or_eq_of_le hi with hlt | rfl
    · obtain ⟨hc, hne⟩ := h.1 i s[i] (List.getElem?_eq_getElem hlt)
      rw [if_neg (by rw [hc]; exact hne)]
      exact ih hlt (by omega)
    · rw [if_pos h.2]

theorem strlen_of_shows {bin : CharPtr} {s : List Char} (h : Shows bin s)
    (hlen : s.length < 2 ^ 64) : strlen bin = s.length :=
  strlenFrom_of_shows h (Nat.zero_le _) hlen

theorem cString_of_shows {bin : CharPtr} {s : List Char} (h : Shows bin s)
    (hlen : s.length < 2 ^ 64) : cString bin = s := by
  rw [cString, strlen_of_shows h hlen]
  refine List.ext_getElem (by simp) fun i h₁ h₂ => ?_
  rw [List.getElem_map, List.getElem_range]
  exact (h.1 i s[i] (List.getElem?_eq_getElem h₂)).1

end CacheSimulator
end SystemsProjects

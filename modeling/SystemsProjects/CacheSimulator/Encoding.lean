import SystemsProjects.CacheSimulator.Simulator
import SystemsProjects.Lib.CInt
import SystemsProjects.Lib.Loop

/-!
# Numbers as bit strings

The encoder and the second decoder of `binary.h`.  `intToBinaryString` fills a buffer of
`bits` characters from the right, and writes in front of it if the number has more bits.  It
asks `malloc` for `bits+1` of them, an `int`: with INT_MAX bits the sum wraps, and there is no
buffer to fill.
`binaryStringToInt` reads a buffer of `size` characters, the last of which is the terminator.

`bitString n v` is what both are about: the `n` binary digits of `v`, the highest one first.
-/

namespace SystemsProjects
namespace CacheSimulator

open Lib

/-- Why a program is left without a defined next step. -/
inductive Fault where
  /-- a write outside of an array -/
  | outOfBounds
  /-- a write to NULL -/
  | nullPointer
  /-- an `int` that gets too large -/
  | overflow
  /-- a loop that does not end -/
  | diverges
  deriving DecidableEq, Repr

/-! ## The code -/

/-- What `pow(2, e)` adds to an `int`: one half is cut off. -/
def powTwo (e : ℤ) : ℤ := if 0 ≤ e then 2 ^ e.toNat else 0

/-- The loop of `binaryStringToInt`, with `i` going down to 0. -/
def toIntLoop (bin : CharPtr) (size : ℤ) : ℕ → ℤ → ℤ
  | 0, sum => sum
  | i + 1, sum =>
      toIntLoop bin size i (if bin i = '1' then sum + powTwo (size - 1 - i - 1) else sum)

/-- The value of the `size` digits that begin at `bin`. -/
def binaryStringToInt (bin : CharPtr) (size : ℕ) : ℤ := toIntLoop bin size size 0

/-- The body of the loop of `intToBinaryString`, on `value`, `pos` and the buffer. -/
def encodeBody : ℤ × ℤ × List Char → Except Fault (ℤ × ℤ × List Char ⊕ List Char)
  | (value, pos, binary) =>
    if value > 0 then
      if pos < 0 then .error .outOfBounds
      else pure (.inl (value / 2, pos - 1,
        binary.set pos.toNat (if value % 2 = 0 then '0' else '1')))
    else pure (.inr binary)

/-- `(bits+1)*sizeof(char)`: a sum of `int`s, which wraps, and then a `size_t`. -/
def bufferSize (bits : ℤ) : ℤ := toUInt64 (toInt32 (bits + 1))

/-- The buffer filled with zeros, and the terminator behind them.  `malloc` has no block of more
than PTRDIFF_MAX bytes, and nobody asks whether it returned one. -/
def zeroBuffer (bits : ℤ) : Except Fault (List Char) :=
  if 2 ^ 63 ≤ bufferSize bits then .error .nullPointer
  else if 0 ≤ bits ∧ bits < bufferSize bits then pure (List.replicate bits.toNat '0')
  else .error .outOfBounds

/-- The characters in front of the terminator. -/
def intToBinaryString (i bits : ℤ) : Except Fault (List Char) := do
  let binary ← zeroBuffer bits
  loop .diverges encodeBody (i.toNat + 1) (i, bits - 1, binary)

/-! ## Binary digits -/

/-- The lowest binary digit. -/
def bitChar (v : ℕ) : Char := if v % 2 = 0 then '0' else '1'

/-- What the encoder tests. -/
theorem ite_mod_two (v : ℕ) : (if (v : ℤ) % 2 = 0 then '0' else '1') = bitChar v := by
  unfold bitChar
  norm_cast

/-- The `n` lowest binary digits of `v`, the highest one first. -/
def bitString : ℕ → ℕ → List Char
  | 0, _ => []
  | n + 1, v => bitString n (v / 2) ++ [bitChar v]

@[simp] theorem length_bitString (n : ℕ) : ∀ v, (bitString n v).length = n := by
  induction n with
  | zero => exact fun _ => rfl
  | succ n ih =>
    intro v
    rw [bitString, List.length_append, ih]
    rfl

theorem bitString_zero (n : ℕ) : bitString n 0 = List.replicate n '0' := by
  induction n with
  | zero => rfl
  | succ n ih =>
    rw [bitString, Nat.zero_div, ih, List.replicate_succ']
    rfl

theorem binary_of_mem_bitString {c : Char} (n : ℕ) :
    ∀ {v : ℕ}, c ∈ bitString n v → c = '0' ∨ c = '1' := by
  induction n with
  | zero => exact fun h => absurd h List.not_mem_nil
  | succ n ih =>
    intro v h
    rw [bitString, List.mem_append, List.mem_singleton] at h
    rcases h with h | rfl
    · exact ih h
    · unfold bitChar
      split
      · exact Or.inl rfl
      · exact Or.inr rfl

/-! ## The encoder -/

theorem bufferSize_eq {bits : ℕ} (h : bits < 2 ^ 31 - 1) : bufferSize bits = bits + 1 := by
  rw [bufferSize, toInt32_of_range (by omega) (by omega), toUInt64_of_range (by omega) (by omega)]

/-- **The buffer**, when its size is an `int`. -/
theorem zeroBuffer_eq {bits : ℕ} (h : bits < 2 ^ 31 - 1) :
    zeroBuffer bits = .ok (List.replicate bits '0') := by
  rw [zeroBuffer, bufferSize_eq h, if_neg (by omega), if_pos (by omega), Int.toNat_natCast]
  rfl

/-- With INT_MAX bits `malloc` is asked for `2 ^ 64 - 2 ^ 31` bytes. -/
theorem zeroBuffer_max : zeroBuffer (2 ^ 31 - 1) = .error .nullPointer := by
  have hsize : bufferSize (2 ^ 31 - 1) = 2 ^ 64 - 2 ^ 31 := by decide
  rw [zeroBuffer, hsize, if_pos (by norm_num)]

theorem encodeBody_done (pos : ℤ) (binary : List Char) :
    encodeBody (0, pos, binary) = .ok (.inr binary) := rfl

/-- One digit is written. -/
theorem encodeBody_digit {v n : ℕ} (hv : v ≠ 0) (l : List Char) :
    encodeBody (v, ((n + 1 : ℕ) : ℤ) - 1, List.replicate (n + 1) '0' ++ l) =
      .ok (.inl (((v / 2 : ℕ) : ℤ), (n : ℤ) - 1, List.replicate n '0' ++ bitChar v :: l)) := by
  have hpos : ((n + 1 : ℕ) : ℤ) - 1 = (n : ℤ) := by omega
  have hset : (List.replicate (n + 1) '0' ++ l).set n (bitChar v) =
      List.replicate n '0' ++ bitChar v :: l := by
    rw [List.replicate_succ', List.append_assoc, List.set_append_right _ _ (by simp)]
    simp
  rw [hpos, encodeBody, if_pos (by omega), if_neg (by omega), Int.toNat_natCast, ite_mod_two, hset]
  rfl

/-- **The encoder on `n` places**: the digits, if there is room for them. -/
theorem encode_loop (n : ℕ) : ∀ {v fuel : ℕ} (l : List Char), v < fuel →
    loop .diverges encodeBody fuel ((v : ℤ), (n : ℤ) - 1, List.replicate n '0' ++ l) =
      if v < 2 ^ n then .ok (bitString n v ++ l) else .error .outOfBounds := by
  induction n with
  | zero =>
    intro v fuel l hfuel
    obtain ⟨fuel, rfl⟩ := Nat.exists_eq_succ_of_ne_zero (Nat.ne_of_gt (Nat.zero_lt_of_lt hfuel))
    by_cases hv : v = 0
    · subst hv
      rw [if_pos (by decide)]
      exact loop_of_leave (encodeBody_done _ _)
    · have hbody : encodeBody ((v : ℤ), ((0 : ℕ) : ℤ) - 1, List.replicate 0 '0' ++ l) =
          .error .outOfBounds := by
        rw [encodeBody, if_pos (by omega), if_pos (by decide)]
      rw [if_neg (by omega), loop, hbody, error_bind]
  | succ n ih =>
    intro v fuel l hfuel
    obtain ⟨fuel, rfl⟩ := Nat.exists_eq_succ_of_ne_zero (Nat.ne_of_gt (Nat.zero_lt_of_lt hfuel))
    by_cases hv : v = 0
    · subst hv
      rw [if_pos (Nat.two_pow_pos _), bitString_zero]
      exact loop_of_leave (encodeBody_done _ _)
    · have hhalf : v / 2 < 2 ^ n ↔ v < 2 ^ (n + 1) := by
        rw [pow_succ]
        omega
      rw [loop_of_continue (encodeBody_digit hv l), ih (bitChar v :: l) (by omega), bitString,
        List.append_assoc]
      simp only [hhalf, List.singleton_append]

/-- **`intToBinaryString`** gives the digits of a number that has no more than `bits` of them,
and writes in front of the buffer otherwise. -/
theorem intToBinaryString_eq (v : ℕ) {bits : ℕ} (hbits : bits < 2 ^ 31 - 1) :
    intToBinaryString v bits =
      if v < 2 ^ bits then .ok (bitString bits v) else .error .outOfBounds := by
  have h := encode_loop bits [] (Nat.lt_succ_self v)
  rw [List.append_nil, List.append_nil] at h
  rw [intToBinaryString, zeroBuffer_eq hbits, ok_bind]
  exact h

/-! ## The decoder -/

/-- The loop over the digits of `v`. -/
theorem toIntLoop_eq {bin : CharPtr} {size : ℕ} (n : ℕ) : ∀ {v : ℕ} (sum : ℤ), v < 2 ^ n →
    n < size → (∀ i c, (bitString n v)[i]? = some c → bin (i : ℕ) = c) →
      toIntLoop bin size n sum = sum + 2 ^ (size - 1 - n) * v := by
  induction n with
  | zero =>
    intro v sum hv _ _
    obtain rfl : v = 0 := Nat.lt_one_iff.mp hv
    rw [toIntLoop]
    simp
  | succ n ih =>
    intro v sum hv hsize hbin
    have hlength : (bitString n (v / 2)).length = n := length_bitString n _
    have hlast : bin n = bitChar v := by
      refine hbin n (bitChar v) ?_
      rw [bitString, List.getElem?_append_right hlength.le, hlength, Nat.sub_self]
      rfl
    have hrest : ∀ i c, (bitString n (v / 2))[i]? = some c → bin (i : ℕ) = c := by
      intro i c hc
      refine hbin i c ?_
      rw [bitString, List.getElem?_append_left (List.getElem?_eq_some_iff.mp hc).1]
      exact hc
    have hhalf : v / 2 < 2 ^ n := by
      rw [pow_succ] at hv
      omega
    have hexp : (size : ℤ) - 1 - n - 1 = ((size - 1 - (n + 1) : ℕ) : ℤ) := by omega
    have hpow : (2 : ℤ) ^ (size - 1 - n) = 2 * 2 ^ (size - 1 - (n + 1)) := by
      rw [← pow_succ']
      congr 1
      omega
    have hv2 : (v : ℤ) = 2 * (v / 2 : ℕ) + (v % 2 : ℕ) := by omega
    rw [toIntLoop, ih _ hhalf (by omega) hrest, hlast, hpow]
    unfold bitChar powTwo
    rw [hexp, if_pos (Int.natCast_nonneg _), Int.toNat_natCast]
    by_cases heven : v % 2 = 0
    · rw [if_pos heven, if_neg (by decide), hv2, heven]
      push_cast
      ring
    · have hodd : v % 2 = 1 := by omega
      rw [if_neg heven, if_pos rfl, hv2, hodd]
      push_cast
      ring

/-- **`binaryStringToInt`** on the digits of a number and the terminator. -/
theorem binaryStringToInt_bitString {bin : CharPtr} {n v : ℕ} (hv : v < 2 ^ n)
    (h : Shows bin (bitString n v)) : binaryStringToInt bin (n + 1) = v := by
  have hnul : bin n = nul := by
    have hend := h.2
    rw [length_bitString] at hend
    exact hend
  unfold binaryStringToInt
  rw [toIntLoop, hnul, if_neg (by decide), toIntLoop_eq n 0 hv (Nat.lt_succ_self n)
    fun i c hc => (h.1 i c hc).1]
  simp

end CacheSimulator
end SystemsProjects

import SystemsProjects.CacheSimulator.Encoding

/-!
# The codec of `binary.h`, with every `int` and every place

The encoder writes the digits of a number from the right, whatever room there is, as long as it
has a buffer: `bits+1` is an `int`, and for INT_MAX bits there is none.  The decoders
walk from the right too, and add a power of two for each `'1'`: `binaryStringToInt` from the
terminator on, which is why its exponent is one too small, and `binaryStringRangeToInt` from any
place on, with a second counter.

Here the sums are computed as the code does it.  `pow` is a function of the mathematical library,
which is exact for the exponents from 0 to 31; a sum is a `double`, and it has to be an `int`
again when its fraction has been cut off.  The counters of the decoders go down to -1 or up to a
length and cannot overflow.  The places that are read and written are written down, inside of the
string or not.

One digit is enough for both decoders: after it the sum is the number modulo the next power
of two (`addDigit_eq`).  Where no sum overflows, the simpler decoders of the simulator compute the
same (`binaryStringToInt_agrees`, `binaryStringRangeToInt_agrees`).
-/

namespace SystemsProjects
namespace CacheSimulator
namespace BitCodec

open Lib

/-! ## The code -/

/-- A number that is stored in an `int`. -/
def int (z : ℤ) : Except Fault ℤ :=
  if -2 ^ 31 ≤ z ∧ z < 2 ^ 31 then .ok z else .error .overflow

section Decoders

variable (pow : ℤ → ℚ)

/-- `sum = sum + pow(2, e)`, where `pow e` is what `pow(2, e)` returns. -/
def addPow (sum e : ℤ) : Except Fault ℤ :=
  int ((sum + pow e).num.tdiv (sum + pow e).den)

/-- The `if` of both decoders, at place `i` with the exponent `e`. -/
def addDigit (bin : CharPtr) (i e sum : ℤ) : Except Fault ℤ :=
  if bin i = '1' then addPow pow sum e else pure sum

/-- The body of the loop of `binaryStringToInt`, on `i` and `sum`. -/
def toIntBody (bin : CharPtr) (size : ℤ) : ℤ × ℤ → Except Fault (ℤ × ℤ ⊕ ℤ)
  | (i, sum) =>
    if i > -1 then do
      let sum ← addDigit pow bin i (size - 1 - i - 1) sum
      pure (.inl (i - 1, sum))
    else pure (.inr sum)

/-- The decoder, for a size that may be any `int`. -/
def binaryStringToInt (bin : CharPtr) (size : ℤ) : Except Fault ℤ :=
  loop .diverges (toIntBody pow bin size) (size.toNat + 1) (size - 1, 0)

/-- The body of the loop of `binaryStringRangeToInt`, on `i`, `counter`, `sum` and the places
that have been read. -/
def rangeBody (bin : CharPtr) (start stop : ℤ) : ℤ × ℤ × ℤ × List ℤ →
    Except Fault (ℤ × ℤ × ℤ × List ℤ ⊕ ℤ × List ℤ)
  | (i, counter, sum, reads) =>
    if counter < stop - start + 1 then do
      let sum ← addDigit pow bin i counter sum
      pure (.inl (i - 1, counter + 1, sum, reads ++ [i]))
    else pure (.inr (sum, reads))

/-- The number, and the places that the loop has read. -/
def binaryStringRangeToInt (bin : CharPtr) (start stop : ℤ) : Except Fault (ℤ × List ℤ) :=
  let size : ℤ := strlen bin
  loop .diverges (rangeBody pow bin start stop) ((stop - start + 1).toNat + 1)
    (toInt32 (toUInt64 (size - start - 1)), 0, 0, [])

end Decoders

/-- The body of the digit loop of `intToBinaryString`, on `value`, `pos` and the characters that
have been written, each with its place. -/
def digitBody : ℤ × ℤ × List (ℤ × Char) →
    Except Fault (ℤ × ℤ × List (ℤ × Char) ⊕ List (ℤ × Char))
  | (value, pos, writes) =>
    if value > 0 then
      pure (.inl (value / 2, pos - 1, writes ++ [(pos, if value % 2 = 0 then '0' else '1')]))
    else pure (.inr writes)

/-- What the digit loop writes for the `int` `i`. -/
def digitLoop (i bits : ℤ) : Except Fault (List (ℤ × Char)) :=
  loop .diverges digitBody (i.toNat + 1) (i, bits - 1, [])

/-- The writes of the digit loop, when the encoder comes to it. -/
def encoderWrites (i bits : ℤ) : Except Fault (List (ℤ × Char)) := do
  let _ ← zeroBuffer bits
  digitLoop i bits

/-! ## Strings of binary digits -/

/-- The number that a string of binary digits denotes. -/
def number (b : List Char) : ℕ := b.foldl (fun v c => 2 * v + if c = '1' then 1 else 0) 0

/-- A text of zeros and ones. -/
def Binary (b : List Char) : Prop := ∀ c ∈ b, c = '0' ∨ c = '1'

theorem number_concat (b : List Char) (c : Char) :
    number (b ++ [c]) = 2 * number b + if c = '1' then 1 else 0 := by
  rw [number, List.foldl_append]
  rfl

theorem bitChar_digit {c : Char} (hc : c = '0' ∨ c = '1') (v : ℕ) :
    bitChar (2 * v + if c = '1' then 1 else 0) = c := by
  unfold bitChar
  rcases hc with rfl | rfl
  · rw [if_neg (show '0' ≠ '1' by decide), if_pos (by omega)]
  · rw [if_pos rfl, if_neg (by omega)]

theorem number_lt (b : List Char) : number b < 2 ^ b.length := by
  induction b using List.reverseRecOn with
  | nil => exact Nat.one_pos
  | append_singleton b c ih =>
    rw [number_concat, List.length_append, List.length_singleton, pow_succ]
    split <;> omega

/-- **A string has the digits of its number.** -/
theorem bitString_number {b : List Char} (hb : Binary b) :
    bitString b.length (number b) = b := by
  induction b using List.reverseRecOn with
  | nil => rfl
  | append_singleton b c ih =>
    have hhalf : (2 * number b + if c = '1' then 1 else 0) / 2 = number b := by
      split <;> omega
    rw [List.length_append, List.length_singleton, number_concat, bitString, hhalf,
      ih fun d hd => hb d (List.mem_append_left _ hd),
      bitChar_digit (hb c (List.mem_append_right _ List.mem_cons_self))]

/-- The digits of a number, counted from the right. -/
theorem getElem?_bitString (n : ℕ) : ∀ {v k : ℕ}, k < n →
    (bitString n v)[n - 1 - k]? = some (bitChar (v / 2 ^ k)) := by
  induction n with
  | zero => exact fun hk => absurd hk (Nat.not_lt_zero _)
  | succ n ih =>
    intro v k hk
    have hlength : (bitString n (v / 2)).length = n := length_bitString n _
    rw [bitString]
    cases k with
    | zero =>
      rw [List.getElem?_append_right (by omega), hlength, pow_zero, Nat.div_one]
      simp
    | succ k =>
      rw [List.getElem?_append_left (by omega), show n + 1 - 1 - (k + 1) = n - 1 - k by omega,
        ih (by omega), Nat.div_div_eq_div_mul, ← pow_succ']

/-- The characters that stand in memory. -/
theorem char_of_shows {bin : CharPtr} {n v : ℕ} (h : Shows bin (bitString n v)) {k : ℕ}
    (hk : k < n) : bin ((n : ℤ) - 1 - k) = bitChar (v / 2 ^ k) := by
  have hplace : ((n - 1 - k : ℕ) : ℤ) = (n : ℤ) - 1 - k := by omega
  rw [← hplace]
  exact (h.1 _ _ (getElem?_bitString n hk)).1

/-! ## One digit -/

/-- `pow(2, k)` is exact for the exponents of an `int`. -/
def Exact (pow : ℤ → ℚ) : Prop := ∀ k : ℕ, k ≤ 31 → pow k = 2 ^ k

/-- Every `int` that is not negative and has no more than `bits` digits comes back from its
string. -/
def EncodeDecode (pow : ℤ → ℚ) (bits : ℕ) : Prop :=
  ∀ v : ℕ, v < 2 ^ bits → v < 2 ^ 31 → ∃ b, intToBinaryString v bits = .ok b ∧
    ∀ bin, Shows bin b → binaryStringToInt pow bin (bits + 1) = .ok (v : ℤ)

/-- The string comes back from its number. -/
def DecodeEncode (pow : ℤ → ℚ) (b : List Char) : Prop :=
  ∀ bin, Shows bin b → ∃ v, binaryStringToInt pow bin (b.length + 1) = .ok v ∧
    intToBinaryString v b.length = .ok b

/-- With INT_MAX bits not even 0 has a string. -/
theorem not_encodeDecode_max (pow : ℤ → ℚ) {bits : ℕ} (hbits : bits = 2 ^ 31 - 1) :
    ¬ EncodeDecode pow bits := by
  intro h
  obtain ⟨b, hb, -⟩ := h 0 (Nat.two_pow_pos bits) (by decide)
  have hmax : (bits : ℤ) = 2 ^ 31 - 1 := by omega
  rw [intToBinaryString, hmax, zeroBuffer_max, error_bind] at hb
  cases hb

section Decoding

variable {pow : ℤ → ℚ} (hpow : Exact pow)

include hpow

theorem addPow_eq {sum k : ℕ} (hk : k ≤ 31) (hsum : sum + 2 ^ k < 2 ^ 31) :
    addPow pow sum k = .ok ((sum + 2 ^ k : ℕ) : ℤ) := by
  have hcast : ((sum : ℤ) : ℚ) + pow k = ((sum + 2 ^ k : ℕ) : ℚ) := by
    rw [hpow k hk]
    push_cast
    rfl
  rw [addPow, hcast, Rat.num_natCast, Rat.den_natCast, Nat.cast_one, Int.tdiv_one, int,
    if_pos ⟨le_trans (by decide) (Int.natCast_nonneg _), by exact_mod_cast hsum⟩]

/-- **A digit of `x`** is added to the digits behind it. -/
theorem addDigit_eq {bin : CharPtr} {i : ℤ} {x k : ℕ} (hx : x < 2 ^ 31)
    (hdigit : bin i = bitChar (x / 2 ^ k)) :
    addDigit pow bin i k ((x % 2 ^ k : ℕ) : ℤ) = .ok ((x % 2 ^ (k + 1) : ℕ) : ℤ) := by
  have hsplit : x % 2 ^ (k + 1) = x % 2 ^ k + 2 ^ k * (x / 2 ^ k % 2) := Nat.mod_pow_succ
  rw [addDigit, hdigit, bitChar]
  rcases Nat.mod_two_eq_zero_or_one (x / 2 ^ k) with heven | hodd
  · rw [if_pos heven, if_neg (by decide), hsplit, heven, Nat.mul_zero, Nat.add_zero]
    rfl
  · have hk : 2 ^ k < 2 ^ 31 := by
      refine lt_of_le_of_lt (Nat.le_of_not_lt fun hlt => ?_) hx
      rw [Nat.div_eq_of_lt hlt] at hodd
      cases hodd
    have hle : x % 2 ^ (k + 1) ≤ x := Nat.mod_le _ _
    rw [hsplit, hodd, Nat.mul_one] at hle ⊢
    rw [if_neg (show ¬ 1 = 0 by decide), if_pos rfl,
      addPow_eq hpow ((Nat.pow_lt_pow_iff_right (by decide)).mp hk).le (hle.trans_lt hx)]

/-! ## The decoder of whole strings -/

/-- The loop, with `j` characters to go. -/
theorem toInt_loop {bin : CharPtr} {n v : ℕ} (hv : v < 2 ^ 31)
    (hdigits : ∀ k < n, bin ((n : ℤ) - 1 - k) = bitChar (v / 2 ^ k)) (j : ℕ) : j ≤ n →
      loop .diverges (toIntBody pow bin (n + 1)) (j + 1)
        ((j : ℤ) - 1, ((v % 2 ^ (n - j) : ℕ) : ℤ)) = .ok ((v % 2 ^ n : ℕ) : ℤ) := by
  induction j with
  | zero =>
    intro _
    refine loop_of_leave ?_
    rw [toIntBody, if_neg (by decide)]
    rfl
  | succ j ih =>
    intro hj
    have hexp : (n : ℤ) + 1 - 1 - j - 1 = ((n - (j + 1) : ℕ) : ℤ) := by omega
    have hdigit : bin (j : ℤ) = bitChar (v / 2 ^ (n - (j + 1))) := by
      rw [← hdigits (n - (j + 1)) (by omega)]
      congr 1
      omega
    have hbody : toIntBody pow bin (n + 1)
        (((j + 1 : ℕ) : ℤ) - 1, ((v % 2 ^ (n - (j + 1)) : ℕ) : ℤ)) =
          .ok (.inl ((j : ℤ) - 1, ((v % 2 ^ (n - j) : ℕ) : ℤ))) := by
      have hi : ((j + 1 : ℕ) : ℤ) - 1 = j := by omega
      rw [toIntBody, hi, if_pos (by omega), hexp, addDigit_eq hpow hv hdigit, ok_bind,
        show n - (j + 1) + 1 = n - j by omega]
      rfl
    rw [loop_of_continue hbody]
    exact ih (Nat.le_of_succ_le hj)

/-- **`binaryStringToInt`** on the digits of an `int` and the terminator. -/
theorem binaryStringToInt_eq {bin : CharPtr} {n v : ℕ} (hv : v < 2 ^ 31) (hbits : v < 2 ^ n)
    (h : Shows bin (bitString n v)) : binaryStringToInt pow bin (n + 1) = .ok (v : ℤ) := by
  have hnul : bin (n : ℤ) ≠ '1' := by
    have hend := h.2
    rw [length_bitString] at hend
    rw [hend]
    decide
  -- the terminator adds nothing
  have hbody : toIntBody pow bin (n + 1) ((n : ℤ) + 1 - 1, 0) = .ok (.inl ((n : ℤ) - 1, 0)) := by
    rw [toIntBody, show (n : ℤ) + 1 - 1 = n by omega, if_pos (by omega), addDigit, if_neg hnul]
    rfl
  have hloop := toInt_loop hpow hv (fun k hk => char_of_shows h hk) n le_rfl
  rw [Nat.sub_self, pow_zero, Nat.mod_one, Nat.mod_eq_of_lt hbits] at hloop
  rw [binaryStringToInt, show ((n : ℤ) + 1).toNat = n + 1 by omega, loop_of_continue hbody]
  exact hloop

/-- The decoder of `Encoding` computes the same. -/
theorem binaryStringToInt_agrees {bin : CharPtr} {n v : ℕ} (hv : v < 2 ^ 31) (hbits : v < 2 ^ n)
    (h : Shows bin (bitString n v)) : binaryStringToInt pow bin (n + 1) =
      .ok (CacheSimulator.binaryStringToInt bin (n + 1)) := by
  rw [binaryStringToInt_eq hpow hv hbits h, binaryStringToInt_bitString hbits h]

theorem encodeDecode_of_lt {bits : ℕ} (hbits : bits < 2 ^ 31 - 1) : EncodeDecode pow bits := by
  intro v hdigits hv
  refine ⟨bitString bits v, ?_, fun bin h => binaryStringToInt_eq hpow hv hdigits h⟩
  rw [intToBinaryString_eq v hbits, if_pos hdigits]

theorem decodeEncode_of_binary {b : List Char} (hb : Binary b) (hlength : b.length ≤ 31) :
    DecodeEncode pow b := by
  intro bin h
  have hbits := number_lt b
  have hv : number b < 2 ^ 31 := hbits.trans_le (Nat.pow_le_pow_right (by decide) hlength)
  refine ⟨number b, binaryStringToInt_eq hpow hv hbits (by rw [bitString_number hb]; exact h), ?_⟩
  rw [intToBinaryString_eq _ (by omega), if_pos hbits, bitString_number hb]

/-- **Encoding and decoding**, and decoding and encoding.  For every `int` that is not negative
and has no more than `bits` digits, exactly if there are fewer than INT_MAX bits, and for every
string of at most 31 digits. -/
theorem codec_round_trip :
    (∀ bits : ℕ, bits < 2 ^ 31 → (EncodeDecode pow bits ↔ bits < 2 ^ 31 - 1)) ∧
      ∀ b : List Char, Binary b → b.length ≤ 31 → DecodeEncode pow b := by
  refine ⟨fun bits hint => ⟨fun h => ?_, encodeDecode_of_lt hpow⟩,
    fun b => decodeEncode_of_binary hpow⟩
  by_contra hge
  exact not_encodeDecode_max pow (show bits = 2 ^ 31 - 1 by omega) h

/-! ## The decoder of a range -/

/-- The loop, with `r` of `w` characters to go.  The first one was read at `top`. -/
theorem range_loop {bin : CharPtr} {top start stop : ℤ} {w x : ℕ} (hx : x < 2 ^ 31)
    (hw : stop - start + 1 = w) (hdigits : ∀ k < w, bin (top - k) = bitChar (x / 2 ^ k)) (r : ℕ) :
    ∀ {c : ℕ} {reads : List ℤ}, c + r = w → (∀ j ∈ reads, top - w < j ∧ j ≤ top) →
      ∃ reads', loop .diverges (rangeBody pow bin start stop) (r + 1)
          (top - c, c, ((x % 2 ^ c : ℕ) : ℤ), reads) = .ok (((x % 2 ^ w : ℕ) : ℤ), reads') ∧
        ∀ j ∈ reads', top - w < j ∧ j ≤ top := by
  induction r with
  | zero =>
    intro c reads hc hreads
    obtain rfl : c = w := hc
    refine ⟨reads, loop_of_leave ?_, hreads⟩
    rw [rangeBody, hw, if_neg (lt_irrefl _)]
    rfl
  | succ r ih =>
    intro c reads hc hreads
    have hbody : rangeBody pow bin start stop (top - c, c, ((x % 2 ^ c : ℕ) : ℤ), reads) =
        .ok (.inl (top - (c + 1 : ℕ), ((c + 1 : ℕ) : ℤ), ((x % 2 ^ (c + 1) : ℕ) : ℤ),
          reads ++ [top - c])) := by
      rw [rangeBody, hw, if_pos (by omega), addDigit_eq hpow hx (hdigits c (by omega)), ok_bind,
        show top - (c : ℤ) - 1 = top - (c + 1 : ℕ) by omega]
      rfl
    rw [loop_of_continue hbody]
    refine ih (by omega) fun j hj => ?_
    rcases List.mem_append.mp hj with hj | hj
    · exact hreads j hj
    · rw [List.mem_singleton.mp hj]
      omega

/-- **A range of bits.**  For every string of at most 31 digits and every range of its places,
`binaryStringRangeToInt` computes the bits of the range, and its loop reads digits of the string
only. -/
theorem range_extracts (b : List Char) (hb : Binary b) (hlength : b.length ≤ 31) (bin : CharPtr)
    (h : Shows bin b) (start stop : ℕ) (hstart : start ≤ stop) (hstop : stop < b.length) :
    ∃ reads, binaryStringRangeToInt pow bin start stop =
        .ok (((number b / 2 ^ start % 2 ^ (stop - start + 1) : ℕ) : ℤ), reads) ∧
      ∀ j ∈ reads, 0 ≤ j ∧ j < b.length := by
  have hnumber : number b < 2 ^ 31 :=
    (number_lt b).trans_le (Nat.pow_le_pow_right (by decide) hlength)
  have hx : number b / 2 ^ start < 2 ^ 31 := (Nat.div_le_self _ _).trans_lt hnumber
  have hfirst : toInt32 (toUInt64 ((strlen bin : ℤ) - start - 1)) = (b.length : ℤ) - 1 - start := by
    rw [strlen_of_shows h (by omega), toUInt64_of_range (by omega) (by omega),
      toInt32_of_range (by omega) (by omega)]
    omega
  have hdigits : ∀ k < stop - start + 1, bin ((b.length : ℤ) - 1 - start - k) =
      bitChar (number b / 2 ^ start / 2 ^ k) := by
    intro k hk
    have hchar := char_of_shows (n := b.length) (v := number b) (k := start + k)
      (by rw [bitString_number hb]; exact h) (by omega)
    rw [Nat.div_div_eq_div_mul, ← pow_add, ← hchar]
    congr 1
    push_cast
    ring
  have hwidth : (stop : ℤ) - start + 1 = (stop - start + 1 : ℕ) := by omega
  obtain ⟨reads, hloop, hreads⟩ := range_loop hpow hx hwidth hdigits (stop - start + 1) (c := 0)
    (Nat.zero_add _) fun j hj => absurd hj List.not_mem_nil
  rw [pow_zero, Nat.mod_one, Nat.cast_zero, Int.sub_zero] at hloop
  refine ⟨reads, ?_, fun j hj => ?_⟩
  · rw [binaryStringRangeToInt, hfirst, hwidth, Int.toNat_natCast]
    exact hloop
  · have hplace := hreads j hj
    omega

/-- A digit that has been added without an overflow. -/
theorem addDigit_eq_ok {bin : CharPtr} {i sum sum' : ℤ} {k : ℕ} (hk : k ≤ 31)
    (h : addDigit pow bin i k sum = .ok sum') :
    sum' = if bin i = '1' then sum + 2 ^ k else sum := by
  have hcast : (sum : ℚ) + pow k = ((sum + 2 ^ k : ℤ) : ℚ) := by
    rw [hpow k hk]
    push_cast
    rfl
  rw [addDigit] at h
  by_cases hone : bin i = '1'
  · rw [if_pos hone, addPow, hcast, Rat.num_intCast, Rat.den_intCast, Nat.cast_one,
      Int.tdiv_one, int] at h
    rw [if_pos hone]
    split at h
    · exact (Except.ok.inj h).symm
    · cases h
  · rw [if_neg hone] at h ⊢
    exact (Except.ok.inj h).symm

theorem rangeLoop_agrees {bin : CharPtr} {start stop : ℤ} (hwidth : stop - start + 1 ≤ 32)
    (r : ℕ) :
    ∀ {i sum z : ℤ} {c : ℕ} {reads reads' : List ℤ}, (c : ℤ) + r = stop - start + 1 →
      loop .diverges (rangeBody pow bin start stop) (r + 1) (i, c, sum, reads) = .ok (z, reads') →
        rangeLoop bin r i c sum = z := by
  induction r with
  | zero =>
    intro i sum z c reads reads' hc hloop
    have hbody : rangeBody pow bin start stop (i, c, sum, reads) = .ok (.inr (sum, reads)) := by
      rw [rangeBody, if_neg (by omega)]
      rfl
    rw [loop_of_leave hbody] at hloop
    exact (Prod.mk.inj (Except.ok.inj hloop)).1
  | succ r ih =>
    intro i sum z c reads reads' hc hloop
    rw [loop, rangeBody, if_pos (by omega)] at hloop
    obtain ⟨next, hbody, hrest⟩ := bind_eq_ok.mp hloop
    obtain ⟨sum', hdigit, hnext⟩ := bind_eq_ok.mp hbody
    obtain rfl := Except.ok.inj hnext
    rw [rangeLoop, ← addDigit_eq_ok hpow (by omega) hdigit]
    exact ih (by push_cast; omega) hrest

/-- The decoder of the simulator computes the same, for every range of at most 32 bits and
whatever stands in memory, unless the sum overflows. -/
theorem binaryStringRangeToInt_agrees {bin : CharPtr} {start stop z : ℤ} {reads : List ℤ}
    (hrange : start ≤ stop) (hwidth : stop - start + 1 ≤ 32)
    (h : binaryStringRangeToInt pow bin start stop = .ok (z, reads)) :
    CacheSimulator.binaryStringRangeToInt bin start stop = z := by
  rw [CacheSimulator.binaryStringRangeToInt]
  exact rangeLoop_agrees hpow hwidth _ (by push_cast; omega) h

end Decoding

/-- The string alone in memory. -/
def memoryOf (b : List Char) : CharPtr := fun i => if 0 ≤ i then b.getD i.toNat nul else nul

theorem shows_memoryOf {b : List Char} (hb : Binary b) : Shows (memoryOf b) b := by
  have hplace : ∀ i : ℕ, memoryOf b i = b.getD i nul := fun i => if_pos (Int.natCast_nonneg i)
  refine ⟨fun i c hc => ?_, ?_⟩
  · rw [hplace, List.getD_eq_getElem?_getD, hc]
    refine ⟨rfl, ?_⟩
    rcases hb c (List.mem_of_getElem? hc) with rfl | rfl <;> decide
  · rw [hplace, List.getD_eq_getElem?_getD, List.getElem?_eq_none le_rfl]
    rfl

theorem exact_zpow : Exact fun e => 2 ^ e := fun k _ => zpow_natCast 2 k

/-- The number six in four places. -/
theorem codec_round_trip_six :
    (∃ b, intToBinaryString (6 : ℕ) (4 : ℕ) = .ok b ∧
      ∀ bin, Shows bin b →
        binaryStringToInt (fun e => 2 ^ e) bin ((4 : ℕ) + 1) = .ok ((6 : ℕ) : ℤ)) ∧
    ∃ v, binaryStringToInt (fun e => 2 ^ e) (memoryOf ['0', '1', '1', '0']) ((4 : ℕ) + 1) = .ok v ∧
      intToBinaryString v (4 : ℕ) = .ok ['0', '1', '1', '0'] := by
  obtain ⟨hencode, hdecode⟩ := codec_round_trip exact_zpow
  have hb : Binary ['0', '1', '1', '0'] := by simp [Binary]
  exact ⟨(hencode 4 (by decide)).mpr (by decide) 6 (by decide) (by decide),
    hdecode _ hb (by decide) _ (shows_memoryOf hb)⟩

/-- INT_MAX bits are too many for the `int` that counts them and the terminator. -/
theorem not_codec_round_trip : ¬ EncodeDecode (fun e => 2 ^ e) (2 ^ 31 - 1) :=
  not_encodeDecode_max _ rfl

/-- The example of the source: bits 5 to 7 of "10000001". -/
theorem range_extracts_example :
    ∃ reads, binaryStringRangeToInt (fun e => 2 ^ e)
        (memoryOf ['1', '0', '0', '0', '0', '0', '0', '1']) (5 : ℕ) (7 : ℕ) =
          .ok (((4 : ℕ) : ℤ), reads) ∧ ∀ j ∈ reads, 0 ≤ j ∧ j < 8 := by
  have hvalue : number ['1', '0', '0', '0', '0', '0', '0', '1'] / 2 ^ 5 % 2 ^ (7 - 5 + 1) = 4 := by
    decide
  have hb : Binary ['1', '0', '0', '0', '0', '0', '0', '1'] := by simp [Binary]
  obtain ⟨reads, hrun, hreads⟩ := range_extracts exact_zpow _ hb (by decide) _ (shows_memoryOf hb)
    5 7 (by decide) (by decide)
  rw [hvalue] at hrun
  exact ⟨reads, hrun, hreads⟩

/-! ## The digit loop -/

/-- The characters and places of the digits of `v`, the last one at `last`. -/
def writesOf (last : ℤ) (v : ℕ) : List (ℤ × Char) :=
  (List.range v.size).map fun k : ℕ => (last - k, bitChar (v / 2 ^ k))

theorem size_half {v : ℕ} (hv : v ≠ 0) : v.size = (v / 2).size + 1 := by
  refine le_antisymm ?_ ?_
  · rw [Nat.size_le, pow_succ]
    have hlt := Nat.lt_size_self (v / 2)
    omega
  · have hpos : 0 < v.size := Nat.size_pos.mpr (Nat.pos_of_ne_zero hv)
    have hle : (v / 2).size ≤ v.size - 1 := by
      rw [Nat.size_le]
      have hlt := Nat.lt_size_self v
      rw [show v.size = v.size - 1 + 1 by omega, pow_succ] at hlt
      omega
    omega

theorem writesOf_half (last : ℤ) {v : ℕ} (hv : v ≠ 0) :
    writesOf last v = (last, bitChar v) :: writesOf (last - 1) (v / 2) := by
  rw [writesOf, size_half hv, List.range_succ_eq_map, List.map_cons, List.map_map, pow_zero,
    Nat.div_one, Nat.cast_zero, Int.sub_zero, writesOf]
  congr 1
  refine List.map_congr_left fun k _ => ?_
  rw [Function.comp_apply, Nat.div_div_eq_div_mul, ← pow_succ']
  congr 1
  omega

theorem digitBody_digit {v : ℕ} (hv : v ≠ 0) (pos : ℤ) (writes : List (ℤ × Char)) :
    digitBody (v, pos, writes) =
      .ok (.inl (((v / 2 : ℕ) : ℤ), pos - 1, writes ++ [(pos, bitChar v)])) := by
  rw [digitBody, if_pos (by omega), ite_mod_two]
  rfl

theorem digit_loop (fuel : ℕ) : ∀ {v : ℕ} {pos : ℤ} {writes : List (ℤ × Char)}, v < fuel →
    loop .diverges digitBody fuel (v, pos, writes) = .ok (writes ++ writesOf pos v) := by
  induction fuel with
  | zero => exact fun hv => absurd hv (Nat.not_lt_zero _)
  | succ fuel ih =>
    intro v pos writes hv
    by_cases hzero : v = 0
    · subst hzero
      refine loop_of_leave ?_
      rw [digitBody, if_neg (by omega), show writesOf pos 0 = [] from rfl, List.append_nil]
      rfl
    · rw [loop_of_continue (digitBody_digit hzero pos writes), ih (by omega),
        writesOf_half pos hzero, List.append_assoc, List.singleton_append]

/-- The digit loop ends, whatever number it is given; a negative one has no digits. -/
theorem digitLoop_eq (i bits : ℤ) :
    digitLoop i bits = .ok (writesOf (bits - 1) i.toNat) := by
  rw [digitLoop]
  rcases Int.le_total 0 i with hi | hi
  · obtain ⟨v, rfl⟩ := Int.eq_ofNat_of_zero_le hi
    exact digit_loop _ (Nat.lt_succ_self _)
  · rw [Int.toNat_of_nonpos hi]
    refine loop_of_leave ?_
    rw [digitBody, if_neg (not_lt.mpr hi)]
    rfl

/-- **Room for the digits** is what a number below the power of two needs. -/
theorem writesOf_inside_iff (v bits : ℕ) :
    (∀ w ∈ writesOf ((bits : ℤ) - 1) v, 0 ≤ w.1 ∧ w.1 < bits) ↔ v < 2 ^ bits := by
  rw [← Nat.size_le]
  constructor
  · intro h
    by_contra hlt
    have hmem : bits ∈ List.range v.size := List.mem_range.mpr (Nat.lt_of_not_le hlt)
    have hplace := (h _ (List.mem_map_of_mem hmem)).1
    dsimp only at hplace
    omega
  · intro h w hw
    obtain ⟨k, hk, rfl⟩ := List.mem_map.mp hw
    have hklt := List.mem_range.mp hk
    dsimp only
    omega

/-- **The encoder performs these writes**, and stops at the first one that is not in the
buffer. -/
theorem encode_writes (fuel : ℕ) : ∀ {v : ℕ} {pos : ℤ} {binary : List Char}, v < fuel →
    loop .diverges encodeBody fuel (v, pos, binary) =
      if ∀ w ∈ writesOf pos v, 0 ≤ w.1 then
        .ok ((writesOf pos v).foldl (fun l w => l.set w.1.toNat w.2) binary)
      else .error .outOfBounds := by
  induction fuel with
  | zero => exact fun hv => absurd hv (Nat.not_lt_zero _)
  | succ fuel ih =>
    intro v pos binary hv
    by_cases hzero : v = 0
    · subst hzero
      have hnone : writesOf pos 0 = [] := rfl
      rw [hnone, if_pos fun w hw => absurd hw List.not_mem_nil]
      exact loop_of_leave (encodeBody_done pos binary)
    · rw [writesOf_half pos hzero]
      by_cases hpos : pos < 0
      · have hbody : encodeBody (v, pos, binary) = .error .outOfBounds := by
          rw [encodeBody, if_pos (by omega), if_pos hpos]
        rw [loop_of_error hbody, if_neg fun h => absurd (h _ List.mem_cons_self) (not_le.mpr hpos)]
      · have hbody : encodeBody (v, pos, binary) =
            .ok (.inl (((v / 2 : ℕ) : ℤ), pos - 1, binary.set pos.toNat (bitChar v))) := by
          rw [encodeBody, if_pos (by omega), if_neg hpos, ite_mod_two]
          rfl
        rw [loop_of_continue hbody, ih (by omega)]
        simp only [List.forall_mem_cons, not_lt.mp hpos, true_and, List.foldl_cons]

/-- What the encoder returns, by the writes of its digit loop. -/
theorem intToBinaryString_eq_writes (i last : ℤ) {bits : ℕ} (hbits : bits < 2 ^ 31 - 1)
    (hlast : last = (bits : ℤ) - 1) :
    intToBinaryString i bits =
      if ∀ w ∈ writesOf last i.toNat, 0 ≤ w.1 then
        .ok ((writesOf last i.toNat).foldl (fun l w => l.set w.1.toNat w.2)
          (List.replicate bits '0'))
      else .error .outOfBounds := by
  subst hlast
  rw [intToBinaryString, zeroBuffer_eq hbits, ok_bind]
  rcases Int.le_total 0 i with hi | hi
  · obtain ⟨v, rfl⟩ := Int.eq_ofNat_of_zero_le hi
    exact encode_writes _ (Nat.lt_succ_self _)
  · have hbody : encodeBody (i, (bits : ℤ) - 1, List.replicate bits '0') =
        .ok (.inr (List.replicate bits '0')) := by
      rw [encodeBody, if_neg (not_lt.mpr hi)]
      rfl
    have hnone : writesOf ((bits : ℤ) - 1) 0 = [] := rfl
    rw [Int.toNat_of_nonpos hi, hnone, if_pos fun w hw => absurd hw List.not_mem_nil]
    exact loop_of_leave hbody

/-- The encoder comes to its digit loop, which ends and has written inside of the `bits`
characters of the buffer. -/
def WritesInside (i bits : ℤ) : Prop :=
  ∃ writes, encoderWrites i bits = .ok writes ∧ ∀ w ∈ writes, 0 ≤ w.1 ∧ w.1 < bits

/-- Without a buffer the digit loop is not reached. -/
theorem not_writesInside_max (i : ℤ) : ¬ WritesInside i (2 ^ 31 - 1) := by
  rintro ⟨writes, hwrites, -⟩
  rw [encoderWrites, zeroBuffer_max, error_bind] at hwrites
  cases hwrites

theorem writesInside_iff_lt (i : ℤ) {bits : ℕ} (hbits : bits < 2 ^ 31 - 1) :
    WritesInside i bits ↔ i < 2 ^ bits := by
  have hnat : i.toNat < 2 ^ bits ↔ i < 2 ^ bits := by
    rw [Int.toNat_lt' (Nat.two_pow_pos bits)]
    push_cast
    rfl
  rw [← hnat, ← writesOf_inside_iff, WritesInside, encoderWrites, zeroBuffer_eq hbits, ok_bind,
    digitLoop_eq]
  constructor
  · rintro ⟨writes, hwrites, hinside⟩
    rw [← Except.ok.inj hwrites] at hinside
    exact hinside
  · exact fun hinside => ⟨_, rfl, hinside⟩

/-- **Where the encoder writes.**  For every `int` and every number of bits: that the digit loop
is reached, ends, and has written inside of the buffer if and only if the number is below
`2 ^ bits`, is right exactly if there are fewer than INT_MAX bits. -/
theorem writes_inside_iff (i : ℤ) (bits : ℕ) (hi : i < 2 ^ 31) (hbits : bits < 2 ^ 31) :
    (WritesInside i bits ↔ i < 2 ^ bits) ↔ bits < 2 ^ 31 - 1 := by
  constructor
  · intro h
    by_contra hge
    have hmax : (bits : ℤ) = 2 ^ 31 - 1 := by omega
    have hroom : i < 2 ^ bits := hi.trans_le (pow_le_pow_right₀ (by norm_num) (by omega))
    refine not_writesInside_max i ?_
    rw [← hmax]
    exact h.mpr hroom
  · exact writesInside_iff_lt i

theorem writes_inside_iff_six : (WritesInside 6 (2 : ℕ) ↔ (6 : ℤ) < 2 ^ 2) ∧ ¬ (6 : ℤ) < 2 ^ 2 :=
  ⟨(writes_inside_iff 6 2 (by decide) (by decide)).mpr (by decide), by decide⟩

/-- The digits of 0 need no room, and still the encoder fails with INT_MAX bits. -/
theorem not_writes_inside :
    ¬ ∀ bits : ℕ, bits < 2 ^ 31 → (WritesInside 0 bits ↔ (0 : ℤ) < 2 ^ bits) := by
  intro h
  have hmax : ((2 ^ 31 - 1 : ℕ) : ℤ) = 2 ^ 31 - 1 := by norm_num
  have hinside := (h (2 ^ 31 - 1) (by decide)).mpr (pow_pos two_pos _)
  rw [hmax] at hinside
  exact not_writesInside_max 0 hinside

end BitCodec
end CacheSimulator
end SystemsProjects

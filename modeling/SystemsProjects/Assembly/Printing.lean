import SystemsProjects.Assembly.Parsing

/-!
# Printing numerals

`_toascii` prints a minus sign unless the answer is greater than zero, writes the decimal digits
of the magnitude to `final`, the lowest one first, and prints them from the last one on.
`numeral` is the canonical numeral of a number (`numeral_canonical`); what `_toascii` prints
differs from it for zero only (`toascii_spec`).
-/

namespace SystemsProjects
namespace Assembly

open Lib

/-! ## Canonical numerals -/

/-- The decimal digits, the lowest one first, at least one. -/
def decimalDigits (n : ℕ) : List ℕ := if n = 0 then [0] else Nat.digits 10 n

theorem decimalDigits_of_lt {n : ℕ} (h : n < 10) : decimalDigits n = [n] := by
  unfold decimalDigits
  split
  · rename_i h0
    rw [h0]
  · rename_i h0
    exact Nat.digits_of_lt 10 n h0 h

theorem decimalDigits_of_ge {n : ℕ} (h : 10 ≤ n) :
    decimalDigits n = n % 10 :: decimalDigits (n / 10) := by
  unfold decimalDigits
  rw [if_neg (by omega), if_neg (by omega), Nat.digits_def' (by decide) (by omega)]

theorem length_decimalDigits_le (n : ℕ) : (decimalDigits n).length ≤ n + 1 := by
  induction n using Nat.strong_induction_on with
  | _ n ih =>
    rcases Nat.lt_or_ge n 10 with h | h
    · rw [decimalDigits_of_lt h]
      exact Nat.succ_le_succ (Nat.zero_le n)
    · have hrest := ih (n / 10) (by omega)
      rw [decimalDigits_of_ge h, List.length_cons]
      omega

/-- The canonical decimal numeral of a number. -/
def numeral (z : ℤ) : List UInt8 :=
  (if z < 0 then [45] else []) ++ (decimalDigits z.natAbs).reverse.map digitByte

theorem decimalDigits_spec (n : ℕ) : (∀ d ∈ decimalDigits n, d < 10) ∧ decimalDigits n ≠ [] ∧
    Nat.ofDigits 10 (decimalDigits n) = n ∧
    ((decimalDigits n).getLast? = some 0 → decimalDigits n = [0]) := by
  unfold decimalDigits
  split
  · rename_i h
    subst h
    exact ⟨by decide, by decide, rfl, fun _ => rfl⟩
  · rename_i h
    have hne : Nat.digits 10 n ≠ [] := Nat.digits_ne_nil_iff_ne_zero.mpr h
    refine ⟨fun d hd => Nat.digits_lt_base (by decide) hd, hne, Nat.ofDigits_digits 10 n,
      fun hlast => ?_⟩
    rw [List.getLast?_eq_getLast_of_ne_nil hne, Option.some.injEq] at hlast
    exact absurd hlast (Nat.getLast_digit_ne_zero 10 h)

/-- **`numeral z` is canonical**: it denotes `z`, it has a minus sign exactly if `z` is negative,
and it begins with the digit 0 for zero only. -/
theorem numeral_canonical (z : ℤ) : ∃ x : Numeral, x.text = numeral z ∧ x.value = z ∧
    (x.negative = true ↔ z < 0) ∧ (x.digits.head? = some 0 → x.digits = [0]) := by
  obtain ⟨hten, hne, hvalue, hzero⟩ := decimalDigits_spec z.natAbs
  refine ⟨⟨decide (z < 0), (decimalDigits z.natAbs).reverse, by simpa using hne,
    fun d hd => hten d (List.mem_reverse.mp hd)⟩, ?_, ?_, decide_eq_true_iff, fun hhead => ?_⟩
  · unfold Numeral.text numeral
    by_cases hz : z < 0
    · simp [hz]
    · simp [hz]
  · unfold Numeral.value Numeral.magnitude
    rw [List.reverse_reverse, hvalue]
    by_cases hz : z < 0
    · simp only [hz, decide_true, if_true]
      omega
    · simp only [hz, decide_false]
      show ((z.natAbs : ℕ) : ℤ) = z
      omega
  · rw [List.head?_reverse] at hhead
    show (decimalDigits z.natAbs).reverse = [0]
    rw [hzero hhead]
    rfl

/-! ## The digits -/

/-- A division by ten. -/
theorem idivq_ten {m : Machine} {n : ℕ} (hn : n < 2 ^ 64) (hrdx : m.rdx = 0)
    (hrax : m.rax = BitVec.ofNat 64 n) :
    m.idivq 10 = .ok { m with
      rax := BitVec.ofNat 64 (n / 10)
      rdx := BitVec.ofNat 64 (n % 10) } := by
  have hdividend : (m.rdx ++ m.rax).toInt = (n : ℤ) := by
    rw [hrdx, hrax, BitVec.toInt_append]
    simp only [BitVec.toNat_ofNat, Nat.mod_eq_of_lt hn]
    simp
  have hten : (10 : BitVec 64).toInt = 10 := by decide
  have hquotient : (n : ℤ).tdiv 10 = ((n / 10 : ℕ) : ℤ) := rfl
  have hremainder : (n : ℤ).tmod 10 = ((n % 10 : ℕ) : ℤ) := rfl
  unfold Machine.idivq
  simp only [hdividend, hten, hquotient, hremainder, BitVec.ofInt_natCast]
  rw [if_neg]
  rintro (h | h | h)
  · exact absurd h (by decide)
  · omega
  · omega

/-- A register that holds a small number, plus one. -/
theorem ofNat_add_one (k : ℕ) : BitVec.ofNat 64 k + 1 = BitVec.ofNat 64 (k + 1) := by
  rw [BitVec.ofNat_add]
  rfl

/-- **One digit.** -/
theorem digitBody_spec {m : Machine} {n k : ℕ} (hn : n < 2 ^ 64) (hk : k < 2 ^ 64)
    (hrax : m.rax = BitVec.ofNat 64 n) (hr15 : m.r15 = BitVec.ofNat 64 k) :
    ∃ m', digitBody m = .ok (if n / 10 = 0 then .inr m' else .inl m') ∧
      m'.rax = BitVec.ofNat 64 (n / 10) ∧ m'.r15 = BitVec.ofNat 64 (k + 1) ∧
      m'.bytes (Addr.final + k) = digitByte (n % 10) ∧
      (∀ y, y < Addr.final + k → m'.bytes y = m.bytes y) ∧
      m'.input = m.input ∧ m'.output = m.output := by
  let m₀ : Machine := { m with rdi := 10, rdx := 0 }
  let m₁ : Machine := { m₀ with
    rax := BitVec.ofNat 64 (n / 10)
    rdx := BitVec.ofNat 64 (n % 10) }
  have hdiv : m₀.idivq 10 = .ok m₁ := idivq_ten hn rfl hrax
  have hplace : m.r15.toNat = k := by
    rw [hr15, BitVec.toNat_ofNat, Nat.mod_eq_of_lt hk]
  let m₂ : Machine := m₁.setQuad (Addr.final + m.r15.toNat) m₁.rdx
  let m₃ : Machine := m₂.setQuad (Addr.final + m.r15.toNat)
    (m₂.quad (Addr.final + m.r15.toNat) + 48)
  let m₄ : Machine := { m₃ with r15 := m₃.r15 + 1 }
  have hbody : digitBody m = if m₄.rax ≠ 0 then pure (.inl m₄) else pure (.inr m₄) := by
    show (m₀.idivq 10 >>= _) = _
    rw [hdiv, ok_bind]
    rfl
  have hrax₄ : m₄.rax = BitVec.ofNat 64 (n / 10) := rfl
  have hr15₄ : m₄.r15 = BitVec.ofNat 64 (k + 1) := by
    show m.r15 + 1 = _
    rw [hr15, ofNat_add_one]
  have hcell : m₂.quad (Addr.final + m.r15.toNat) + 48 = BitVec.ofNat 64 (48 + n % 10) := by
    rw [show m₂.quad _ = BitVec.ofNat 64 (n % 10) from quad_setQuad_self m₁ _ _, Nat.add_comm,
      BitVec.ofNat_add]
    rfl
  have hbyte : m₃.bytes (Addr.final + k) = digitByte (n % 10) := by
    have hnat : (BitVec.ofNat 64 (48 + n % 10)).toNat = 48 + n % 10 := by
      rw [BitVec.toNat_ofNat, Nat.mod_eq_of_lt (by omega)]
    show put m₂.bytes (Addr.final + m.r15.toNat) 8
      (m₂.quad (Addr.final + m.r15.toNat) + 48).toNat (Addr.final + k) = _
    rw [hcell, hnat, hplace, put_of_mem le_rfl (by omega), Nat.sub_self, Nat.pow_zero,
      Nat.div_one]
    rfl
  have hframe : ∀ y, y < Addr.final + k → m₃.bytes y = m.bytes y := by
    intro y hy
    rw [← hplace] at hy
    exact (bytes_setQuad (Or.inl hy) m₂ _).trans (bytes_setQuad (Or.inl hy) m₁ _)
  refine ⟨m₄, ?_, hrax₄, hr15₄, hbyte, hframe, rfl, rfl⟩
  rw [hbody, hrax₄]
  by_cases h : n / 10 = 0
  · rw [if_neg (not_not.mpr ((ofNat_eq_zero_iff (by omega)).mpr h)), if_pos h]
    rfl
  · rw [if_pos (mt (ofNat_eq_zero_iff (by omega)).mp h), if_neg h]
    rfl

/-- **The digits in memory**, the lowest one first. -/
theorem digit_loop (n : ℕ) : ∀ {m : Machine} {k r : ℕ}, n < r → n < 2 ^ 63 →
    k + n < 2 ^ 63 → m.rax = BitVec.ofNat 64 n → m.r15 = BitVec.ofNat 64 k →
      ∃ m', loop .diverges digitBody r m = .ok m' ∧
        m'.r15 = BitVec.ofNat 64 (k + (decimalDigits n).length) ∧
        (∀ i d, (decimalDigits n)[i]? = some d →
          m'.bytes (Addr.final + k + i) = digitByte d) ∧
        (∀ y, y < Addr.final + k → m'.bytes y = m.bytes y) ∧
        m'.input = m.input ∧ m'.output = m.output := by
  induction n using Nat.strong_induction_on with
  | _ n ih =>
    intro m k r hfuel hn hk hrax hr15
    obtain ⟨r, rfl⟩ := Nat.exists_eq_succ_of_ne_zero (Nat.ne_of_gt (Nat.zero_lt_of_lt hfuel))
    obtain ⟨m₁, hbody, hrax₁, hr15₁, hbyte, hframe, hin, hout⟩ :=
      digitBody_spec (by omega) (by omega) hrax hr15
    rcases Nat.lt_or_ge n 10 with hlt | hge
    · rw [if_pos (by omega)] at hbody
      refine ⟨m₁, loop_of_leave hbody, ?_, fun i d hd => ?_, hframe, hin, hout⟩
      · rw [hr15₁, decimalDigits_of_lt hlt]
        rfl
      · rw [decimalDigits_of_lt hlt] at hd
        obtain ⟨hi, rfl⟩ := List.getElem?_eq_some_iff.mp hd
        obtain rfl : i = 0 := Nat.lt_one_iff.mp hi
        rw [Nat.mod_eq_of_lt hlt] at hbyte
        exact hbyte
    · rw [if_neg (by omega)] at hbody
      obtain ⟨m', hloop, hr15', hbytes', hframe', hin', hout'⟩ :=
        ih (n / 10) (by omega) (r := r) (by omega) (by omega) (by omega) hrax₁ hr15₁
      refine ⟨m', (loop_of_continue hbody).trans hloop, ?_, fun i d hd => ?_, fun y hy => ?_,
        hin'.trans hin, hout'.trans hout⟩
      · rw [hr15', decimalDigits_of_ge hge, List.length_cons]
        congr 1
        omega
      · rw [decimalDigits_of_ge hge] at hd
        cases i with
        | zero =>
          obtain rfl : n % 10 = d := Option.some.inj hd
          rw [Nat.add_zero, hframe' _ (by omega)]
          exact hbyte
        | succ i =>
          have hrest := hbytes' i d hd
          have hat : Addr.final + k + (i + 1) = Addr.final + (k + 1) + i := by omega
          rw [hat]
          exact hrest
      · rw [hframe' y (by omega), hframe y hy]

/-! ## The display -/

variable {f : Machine → BitVec 64}

/-- A call of `write`. -/
theorem syscall_write {m : Machine} {x k : ℕ} (hrax : m.rax = 1) (hrdi : m.rdi = 1)
    (hrsi : m.rsi = BitVec.ofNat 64 x) (hrdx : m.rdx = BitVec.ofNat 64 k) (hx : x < 2 ^ 64)
    (hk : k < 2 ^ 64) :
    syscall f m = { m with
      rax := m.rdx
      r11 := f m
      output := m.output ++ bytesAt m.bytes x k } := by
  have hplace : m.rsi.toNat = x := by
    rw [hrsi, BitVec.toNat_ofNat, Nat.mod_eq_of_lt hx]
  have hcount : m.rdx.toNat = k := by
    rw [hrdx, BitVec.toNat_ofNat, Nat.mod_eq_of_lt hk]
  have hread : ¬ (m.rax = 0 ∧ m.rdi = 0) := fun h => absurd (hrdi.symm.trans h.2) (by decide)
  unfold syscall
  rw [if_neg hread, if_pos ⟨hrax, hrdi⟩, hplace, hcount]

theorem displayBody_spec {m : Machine} {k : ℕ} (hk : k < 2 ^ 63)
    (hr15 : m.r15 = BitVec.ofNat 64 (k + 1)) :
    ∃ m', displayBody f m = .ok (if k = 0 then .inr m' else .inl m') ∧
      m'.r15 = BitVec.ofNat 64 k ∧ m'.bytes = m.bytes ∧ m'.input = m.input ∧
      m'.output = m.output ++ [m.bytes (Addr.final + k)] := by
  let m₁ : Machine := { m with r15 := m.r15 - 1 }
  let m₂ : Machine :=
    { m₁ with rsi := BitVec.ofNat 64 Addr.final + m₁.r15, rax := 1, rdi := 1, rdx := 1 }
  have h15 : m.r15 - 1 = BitVec.ofNat 64 k := by
    rw [hr15, ofNat_succ_sub_one]
  have hrsi : m₂.rsi = BitVec.ofNat 64 (Addr.final + k) := by
    show BitVec.ofNat 64 Addr.final + (m.r15 - 1) = _
    rw [h15, BitVec.ofNat_add]
  have hplace : Addr.final + k < 2 ^ 64 := by
    unfold Addr.final
    omega
  have hcall := syscall_write (f := f) (m := m₂) (k := 1) rfl rfl hrsi rfl hplace
    (by decide)
  have hbody : displayBody f m =
      if (syscall f m₂).r15 ≠ 0 then pure (.inl (syscall f m₂))
      else pure (.inr (syscall f m₂)) := rfl
  have h15' : (syscall f m₂).r15 = BitVec.ofNat 64 k := by
    rw [hcall]
    exact h15
  refine ⟨syscall f m₂, ?_, h15', by rw [hcall], by rw [hcall], by rw [hcall]; rfl⟩
  rw [hbody, h15']
  by_cases h : k = 0
  · rw [if_neg (not_not.mpr ((ofNat_eq_zero_iff (by omega)).mpr h)), if_pos h]
    rfl
  · rw [if_pos (mt (ofNat_eq_zero_iff (by omega)).mp h), if_neg h]
    rfl

/-- **The bytes of `final` from the last one on.** -/
theorem display_loop (k : ℕ) : ∀ {m : Machine} {r : ℕ}, k < r → k < 2 ^ 63 →
    m.r15 = BitVec.ofNat 64 (k + 1) →
      ∃ m', loop .diverges (displayBody f) r m = .ok m' ∧ m'.bytes = m.bytes ∧
        m'.input = m.input ∧
        m'.output = m.output ++ (bytesAt m.bytes Addr.final (k + 1)).reverse := by
  induction k with
  | zero =>
    intro m r hfuel hk hr15
    obtain ⟨r, rfl⟩ := Nat.exists_eq_succ_of_ne_zero (Nat.ne_of_gt hfuel)
    obtain ⟨m', hbody, -, hbytes, hin, hout⟩ := displayBody_spec (f := f) hk hr15
    exact ⟨m', loop_of_leave hbody, hbytes, hin, hout⟩
  | succ k ih =>
    intro m r hfuel hk hr15
    obtain ⟨r, rfl⟩ := Nat.exists_eq_succ_of_ne_zero (Nat.ne_of_gt (Nat.zero_lt_of_lt hfuel))
    obtain ⟨m₁, hbody, hr15₁, hbytes, hin, hout⟩ := displayBody_spec (f := f) hk hr15
    rw [if_neg (Nat.succ_ne_zero k)] at hbody
    obtain ⟨m', hloop, hbytes', hin', hout'⟩ :=
      ih (Nat.lt_of_succ_lt_succ hfuel) (by omega) hr15₁
    refine ⟨m', (loop_of_continue hbody).trans hloop, hbytes'.trans hbytes, hin'.trans hin, ?_⟩
    have hlast : bytesAt m.bytes Addr.final (k + 1 + 1) =
        bytesAt m.bytes Addr.final (k + 1) ++ [m.bytes (Addr.final + (k + 1))] := by
      unfold bytesAt
      rw [List.range_succ, List.map_append]
      rfl
    rw [hout', hout, hbytes, hlast, List.reverse_append, List.append_assoc]
    rfl

/-- The digits in memory are displayed as a numeral without a sign. -/
theorem bytesAt_of_digits {bytes : ℕ → UInt8} {x : ℕ} {ds : List ℕ}
    (h : ∀ i d, ds[i]? = some d → bytes (x + i) = digitByte d) :
    bytesAt bytes x ds.length = ds.map digitByte := by
  unfold bytesAt
  refine List.ext_getElem (by simp) fun i h₁ h₂ => ?_
  have hi : i < ds.length := by rwa [List.length_map] at h₂
  rw [List.getElem_map, List.getElem_map, List.getElem_range]
  exact h i ds[i] (List.getElem?_eq_getElem hi)

theorem bytesAt_one (bytes : ℕ → UInt8) (x : ℕ) : bytesAt bytes x 1 = [bytes x] := rfl

/-- **The sign**: it is printed for zero as well. -/
theorem writeSign_spec {m : Machine} {z : ℤ} (hz : z.natAbs < 2 ^ 62)
    (hanswer : m.quad Addr.answer = BitVec.ofInt 64 z)
    (hminus : m.bytes Addr.negativeString = 45) :
    (writeSign f m).quad Addr.answer = BitVec.ofNat 64 z.natAbs ∧
      (writeSign f m).output = m.output ++ (if 0 < z then [] else [45]) ∧
      (∀ y, y < Addr.answer → (writeSign f m).bytes y = m.bytes y) ∧
      (writeSign f m).input = m.input := by
  have hint : (m.quad Addr.answer).toInt = z := by
    rw [hanswer]
    exact BitVec.toInt_ofInt_eq_self (by decide) (by norm_num; omega) (by norm_num; omega)
  by_cases hpos : 0 < z
  · have hmagnitude : z = (z.natAbs : ℤ) := by omega
    have hsame : writeSign f m = m := by
      unfold writeSign
      rw [hint, if_pos hpos]
    rw [hsame, if_pos hpos, List.append_nil, hanswer, ← BitVec.ofInt_natCast, ← hmagnitude]
    exact ⟨rfl, rfl, fun _ _ => rfl, rfl⟩
  · obtain ⟨hneg, -, -, hframe⟩ := negate_spec hanswer
    generalize hm₁ : negate Addr.answer m = m₁ at hneg hframe
    let m₂ : Machine :=
      { m₁ with rsi := BitVec.ofNat 64 Addr.negativeString, rax := 1, rdi := 1, rdx := 1 }
    have hcall := syscall_write (f := f) (m := m₂) (x := Addr.negativeString) (k := 1) rfl
      rfl rfl rfl (by decide) (by decide)
    have hsign : writeSign f m = syscall f m₂ := by
      unfold writeSign
      rw [hint, if_neg hpos, hm₁]
    have hmagnitude : -z = (z.natAbs : ℤ) := by omega
    have hchar : m₁.bytes Addr.negativeString = 45 := by
      rw [hframe.bytes Addr.negativeString (by decide)]
      exact hminus
    rw [bytesAt_one, show m₂.bytes = m₁.bytes from rfl, hchar] at hcall
    rw [hsign, hcall, if_neg hpos, ← BitVec.ofInt_natCast, ← hmagnitude]
    exact ⟨hneg, congrArg (· ++ [45]) hframe.output, fun y hy => hframe.bytes y (Or.inl hy),
      hframe.input⟩

/-- **`_toascii`** prints a minus sign unless the answer is greater than zero, and the digits. -/
theorem toascii_spec {m : Machine} {z : ℤ} (hz : z.natAbs < 2 ^ 62)
    (hanswer : m.quad Addr.answer = BitVec.ofInt 64 z)
    (hminus : m.bytes Addr.negativeString = 45) :
    ∃ m', toascii f m = .ok m' ∧
      m'.output = m.output ++ ((if 0 < z then [] else [45]) ++
        (decimalDigits z.natAbs).reverse.map digitByte) ∧
      (∀ y, y < Addr.answer → m'.bytes y = m.bytes y) ∧ m'.input = m.input := by
  obtain ⟨hquad, hout₁, hbytes₁, hin₁⟩ := writeSign_spec (f := f) hz hanswer hminus
  generalize hm₁ : writeSign f m = m₁ at hquad hout₁ hbytes₁ hin₁
  let m₂ : Machine := { m₁ with rax := m₁.quad Addr.answer, r15 := 0 }
  have hrax : m₂.rax.toNat = z.natAbs := by
    rw [show m₂.rax = BitVec.ofNat 64 z.natAbs from hquad, BitVec.toNat_ofNat,
      Nat.mod_eq_of_lt (by omega)]
  obtain ⟨m₃, hdigits, hr15, hbytes₃, hframe₃, hin₃, hout₃⟩ := digit_loop z.natAbs (m := m₂)
    (k := 0) (r := m₂.rax.toNat + 1) (by omega) (by omega) (by omega) hquad rfl
  have hlength := length_decimalDigits_le z.natAbs
  obtain ⟨last, hlast⟩ : ∃ k, (decimalDigits z.natAbs).length = k + 1 :=
    Nat.exists_eq_succ_of_ne_zero fun h =>
      (decimalDigits_spec z.natAbs).2.1 (List.length_eq_zero_iff.mp h)
  rw [Nat.zero_add] at hr15
  have hcount : m₃.r15.toNat = (decimalDigits z.natAbs).length := by
    rw [hr15, BitVec.toNat_ofNat, Nat.mod_eq_of_lt (by omega)]
  obtain ⟨m', hdisplay, hbytes', hin', hout'⟩ := display_loop (f := f) last (m := m₃)
    (r := m₃.r15.toNat + 1) (by omega) (by omega) (by rw [hr15, hlast])
  refine ⟨m', ?_, ?_, fun y hy => ?_, hin'.trans (hin₃.trans hin₁)⟩
  · unfold toascii
    rw [hm₁]
    show (loop .diverges digitBody (m₂.rax.toNat + 1) m₂ >>= fun m =>
      loop .diverges (displayBody f) (m.r15.toNat + 1) m) = .ok m'
    rw [hdigits, ok_bind]
    exact hdisplay
  · have hdisplayed := bytesAt_of_digits hbytes₃
    rw [Nat.add_zero] at hdisplayed
    rw [hout', hout₃, ← hlast, hdisplayed, List.map_reverse, ← List.append_assoc, ← hout₁]
  · have hbelow : y < Addr.final + 0 := hy.trans (by decide)
    rw [hbytes', hframe₃ y hbelow]
    exact hbytes₁ y hy

end Assembly
end SystemsProjects

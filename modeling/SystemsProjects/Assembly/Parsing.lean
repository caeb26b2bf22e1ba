import SystemsProjects.Assembly.Machine

/-!
# Reading numerals

`_getvaluea` and `_getvalueb` read eight bytes from the last one to the first one.  Zero bytes
and newlines are skipped, a digit is added with its power of ten, and a minus sign changes the
sign of what has been read.  `readByte` is what one byte does to the value and to the number of
digits so far, and `getvalue_spec` says that the subroutines do just that, for any eight bytes.

A numeral of at most eight characters is read as its value (`readDown_text`), so both routines
leave it in their cells, and they agree on any eight bytes (`values_read`).
-/

namespace SystemsProjects
namespace Assembly

open Lib

/-! ## Cells -/

theorem quad_setQuad_self (m : Machine) (x : ℕ) (v : BitVec 64) : (m.setQuad x v).quad x = v := by
  have hv : v.toNat % 256 ^ 8 = v.toNat := Nat.mod_eq_of_lt (by have := v.isLt; omega)
  unfold Machine.quad Machine.setQuad
  rw [value_put_self, hv, BitVec.ofNat_toNat, BitVec.setWidth_eq]

section Registers

variable (m : Machine) (x : ℕ) (v : BitVec 64)

@[simp] theorem r14_setQuad : (m.setQuad x v).r14 = m.r14 := rfl
@[simp] theorem r15_setQuad : (m.setQuad x v).r15 = m.r15 := rfl
@[simp] theorem input_setQuad : (m.setQuad x v).input = m.input := rfl
@[simp] theorem output_setQuad : (m.setQuad x v).output = m.output := rfl

end Registers

theorem bytes_setQuad {x y : ℕ} (h : y < x ∨ x + 8 ≤ y) (m : Machine) (v : BitVec 64) :
    (m.setQuad x v).bytes y = m.bytes y := put_of_notMem h

theorem quad_congr {m m' : Machine} {x : ℕ}
    (h : ∀ y, x ≤ y → y < x + 8 → m'.bytes y = m.bytes y) : m'.quad x = m.quad x := by
  unfold Machine.quad
  rw [value_congr h]

theorem dil_setDil (m : Machine) (c : BitVec 8) : (m.setDil c).dil = c := by
  unfold Machine.dil Machine.setDil
  ext i hi
  simp

/-- From `m` to `m'` only the `k` bytes at `x` have changed, and nothing has been read or
written. -/
structure Frame (x k : ℕ) (m m' : Machine) : Prop where
  bytes : ∀ y, y < x ∨ x + k ≤ y → m'.bytes y = m.bytes y
  input : m'.input = m.input
  output : m'.output = m.output

theorem Frame.refl (x k : ℕ) (m : Machine) : Frame x k m m := ⟨fun _ _ => rfl, rfl, rfl⟩

theorem Frame.trans {x k : ℕ} {m m' m'' : Machine} (h : Frame x k m m') (h' : Frame x k m' m'') :
    Frame x k m m'' where
  bytes := fun y hy => (h'.bytes y hy).trans (h.bytes y hy)
  input := h'.input.trans h.input
  output := h'.output.trans h.output

theorem frame_setQuad (m : Machine) (x : ℕ) (v : BitVec 64) : Frame x 8 m (m.setQuad x v) :=
  ⟨fun _ hy => bytes_setQuad hy m v, rfl, rfl⟩

/-- A cell that is not among the bytes that have changed. -/
theorem Frame.quad {x k y : ℕ} {m m' : Machine} (h : Frame x k m m') (hy : y + 8 ≤ x ∨ x + k ≤ y) :
    m'.quad y = m.quad y := quad_congr fun z hz hz' => h.bytes z (by omega)

/-! ## Counters -/

theorem ofNat_eq_zero_iff {k : ℕ} (hk : k < 2 ^ 64) : BitVec.ofNat 64 k = 0 ↔ k = 0 := by
  constructor
  · intro h
    have hnat := congrArg BitVec.toNat h
    rw [BitVec.toNat_ofNat, Nat.mod_eq_of_lt hk] at hnat
    exact hnat
  · rintro rfl
    rfl

theorem ofNat_succ_sub_one (k : ℕ) : BitVec.ofNat 64 (k + 1) - 1 = BitVec.ofNat 64 k := by
  rw [BitVec.ofNat_add]
  exact BitVec.add_sub_cancel _ _

/-! ## Powers of ten -/

/-- The loop of `_mult`. -/
theorem mult_loop (k : ℕ) : ∀ {m : Machine} {z : ℤ}, m.r11 = BitVec.ofNat 64 k → k < 2 ^ 64 →
    m.rsi = BitVec.ofInt 64 z →
      loop .diverges multBody (k + 1) m =
        .ok { m with rsi := BitVec.ofInt 64 (z * 10 ^ k), r11 := 0 } := by
  induction k with
  | zero =>
    intro m z hr hk hz
    have hbody : multBody m = .ok (.inr m) := if_pos hr
    have hsame : m = { m with rsi := BitVec.ofInt 64 (z * 10 ^ 0), r11 := 0 } := by
      rw [pow_zero, mul_one, ← hz]
      exact congrArg (fun r => { m with r11 := r }) hr
    rw [loop_of_leave hbody]
    exact congrArg Except.ok hsame
  | succ k ih =>
    intro m z hr hk hz
    have hne : m.r11 ≠ 0 := by
      rw [hr]
      exact mt (ofNat_eq_zero_iff hk).mp (Nat.succ_ne_zero k)
    have hbody : multBody m = .ok (.inl { m with rsi := m.rsi * 10, r11 := m.r11 - 1 }) :=
      if_neg hne
    have hrsi : m.rsi * 10 = BitVec.ofInt 64 (z * 10) := by
      rw [BitVec.ofInt_mul, hz]
      rfl
    have hr11 : m.r11 - 1 = BitVec.ofNat 64 k := by
      rw [hr, ofNat_succ_sub_one]
    rw [loop_of_continue hbody, ih hr11 (Nat.lt_of_succ_lt hk) hrsi, pow_succ', mul_assoc]

/-- **`_mult` and `_multb`** add `%rsi` times a power of ten. -/
theorem multTo_spec {val k : ℕ} {m : Machine} {v z : ℤ} (hr : m.r11 = BitVec.ofNat 64 k)
    (hk : k < 2 ^ 64) (hz : m.rsi = BitVec.ofInt 64 z) (hv : m.quad val = BitVec.ofInt 64 v) :
    ∃ m', multTo val m = .ok m' ∧ m'.quad val = BitVec.ofInt 64 (v + z * 10 ^ k) ∧
      m'.r14 = m.r14 ∧ m'.r15 = m.r15 ∧ Frame val 8 m m' := by
  have hcount : m.r11.toNat = k := by
    rw [hr, BitVec.toNat_ofNat, Nat.mod_eq_of_lt hk]
  unfold multTo
  rw [hcount, mult_loop k hr hk hz, ok_bind]
  refine ⟨_, rfl, ?_, rfl, rfl, ?_⟩
  · rw [quad_setQuad_self, BitVec.ofInt_add, ← hv]
    rfl
  · exact ⟨fun y hy => bytes_setQuad hy _ _, rfl, rfl⟩

theorem negate_spec {cell : ℕ} {m : Machine} {v : ℤ} (hv : m.quad cell = BitVec.ofInt 64 v) :
    (negate cell m).quad cell = BitVec.ofInt 64 (-v) ∧ (negate cell m).r14 = m.r14 ∧
      (negate cell m).r15 = m.r15 ∧ Frame cell 8 m (negate cell m) := by
  let m₁ : Machine := { m with r8 := m.quad cell }
  let m₂ : Machine := m₁.setQuad cell (m₁.quad cell - m₁.r8)
  have hzero : m₂.quad cell = 0 := (quad_setQuad_self _ _ _).trans (BitVec.sub_self _)
  have hr8 : m₂.r8 = BitVec.ofInt 64 v := hv
  have hlast : negate cell m = m₂.setQuad cell (m₂.quad cell - m₂.r8) := rfl
  rw [hlast]
  refine ⟨?_, ?_, ?_, ?_⟩
  · rw [quad_setQuad_self, hzero, hr8, BitVec.ofInt_neg]
    exact BitVec.zero_sub _
  · rw [r14_setQuad, show m₂.r14 = m₁.r14 from r14_setQuad m₁ _ _]
  · rw [r15_setQuad, show m₂.r15 = m₁.r15 from r15_setQuad m₁ _ _]
  · have hm₁ : Frame cell 8 m m₁ := ⟨fun _ _ => rfl, rfl, rfl⟩
    have hm₂ : Frame cell 8 m₁ m₂ := frame_setQuad m₁ cell (m₁.quad cell - m₁.r8)
    exact (hm₁.trans hm₂).trans (frame_setQuad m₂ cell (m₂.quad cell - m₂.r8))

/-! ## One byte -/

/-- What a byte does to the value and the number of digits. -/
def readByte : ℤ × ℕ → UInt8 → ℤ × ℕ
  | (v, k), c =>
    if c = 0 then (v, k)
    else if c = 10 then (v, k)
    else if c = 45 then (-v, k)
    else (v + (c - 48).toNat * 10 ^ k, k + 1)

theorem readByte_snd_le (s : ℤ × ℕ) (c : UInt8) : (readByte s c).2 ≤ s.2 + 1 := by
  obtain ⟨v, k⟩ := s
  rw [readByte]
  split_ifs
  · exact Nat.le_succ k
  · exact Nat.le_succ k
  · exact Nat.le_succ k
  · exact le_rfl

/-- A digit. -/
theorem digit_spec {val k : ℕ} {m : Machine} {v : ℤ} {c : UInt8} (hk : k < 8)
    (hdil : m.dil = c.toBitVec) (hr14 : m.r14 = BitVec.ofNat 64 k)
    (hv : m.quad val = BitVec.ofInt 64 v) :
    ∃ m', digit (multTo val) m = .ok m' ∧
      m'.quad val = BitVec.ofInt 64 (v + (c - 48).toNat * 10 ^ k) ∧
      m'.r14 = BitVec.ofNat 64 (k + 1) ∧ m'.r15 = m.r15 ∧ Frame val 8 m m' := by
  let m₁ : Machine := m.setDil (m.dil - 48)
  let m₂ : Machine := { m₁ with rsi := m₁.dil.setWidth 64 }
  let m₃ : Machine := { m₂ with r11 := m₂.r14 }
  have hrsi : m₃.rsi = BitVec.ofInt 64 ((c - 48).toNat : ℤ) := by
    have hdigit : m₁.dil = (c - 48).toBitVec := by
      rw [show m₁.dil = m.dil - 48 from dil_setDil m _, hdil]
      rfl
    show m₁.dil.setWidth 64 = _
    rw [hdigit, BitVec.ofInt_natCast]
    exact (BitVec.ofNat_toNat 64 _).symm
  obtain ⟨m', hrun, hquad, h14, h15, hframe⟩ :=
    multTo_spec (m := m₃) hr14 (by omega) hrsi hv
  have hbody : digit (multTo val) m = .ok { m' with r14 := m'.r14 + 1 } := by
    show (multTo val m₃ >>= fun m => pure { m with r14 := m.r14 + 1 }) = _
    rw [hrun, ok_bind]
    rfl
  have hnext : m'.r14 + 1 = BitVec.ofNat 64 (k + 1) := by
    rw [h14, BitVec.ofNat_add, ← hr14]
    rfl
  exact ⟨_, hbody, hquad, hnext, h15, hframe.bytes, hframe.input, hframe.output⟩

/-- Any character. -/
theorem character_spec {val : ℕ} {m : Machine} {s : ℤ × ℕ} {c : UInt8} (hs : s.2 < 8)
    (hdil : m.dil = c.toBitVec) (hr14 : m.r14 = BitVec.ofNat 64 s.2)
    (hv : m.quad val = BitVec.ofInt 64 s.1) :
    ∃ m', character val (multTo val) m = .ok m' ∧
      m'.quad val = BitVec.ofInt 64 (readByte s c).1 ∧
      m'.r14 = BitVec.ofNat 64 (readByte s c).2 ∧ m'.r15 = m.r15 ∧ Frame val 8 m m' := by
  obtain ⟨v, k⟩ := s
  have hchar : ∀ d : UInt8, m.dil = d.toBitVec ↔ c = d := fun d => by
    rw [hdil, UInt8.toBitVec_inj]
  have hnul : m.dil = 0 ↔ c = 0 := hchar 0
  have hnewline : m.dil = 10 ↔ c = 10 := hchar 10
  have hminus : m.dil = 45 ↔ c = 45 := hchar 45
  rw [character, readByte]
  by_cases h0 : c = 0
  · rw [if_pos (hnul.mpr h0), if_pos h0]
    exact ⟨m, rfl, hv, hr14, rfl, Frame.refl _ _ _⟩
  rw [if_neg (mt hnul.mp h0), if_neg h0]
  by_cases h10 : c = 10
  · rw [if_pos (hnewline.mpr h10), if_pos h10]
    exact ⟨m, rfl, hv, hr14, rfl, Frame.refl _ _ _⟩
  rw [if_neg (mt hnewline.mp h10), if_neg h10]
  by_cases h45 : c = 45
  · rw [if_pos (hminus.mpr h45), if_pos h45]
    obtain ⟨hneg, h14, h15, hframe⟩ := negate_spec hv
    exact ⟨negate val m, rfl, hneg, h14.trans hr14, h15, hframe⟩
  · rw [if_neg (mt hminus.mp h45), if_neg h45]
    exact digit_spec hs hdil hr14 hv

/-- **One round of the loop.** -/
theorem valueBody_spec (text val : ℕ) {k : ℕ} {m : Machine} {s : ℤ × ℕ} (hk : k < 8) (hs : s.2 < 8)
    (hr15 : m.r15 = BitVec.ofNat 64 (k + 1)) (hr14 : m.r14 = BitVec.ofNat 64 s.2)
    (hv : m.quad val = BitVec.ofInt 64 s.1) :
    ∃ m', valueBody text val (multTo val) m = .ok (if k = 0 then .inr m' else .inl m') ∧
      m'.r15 = BitVec.ofNat 64 k ∧
      m'.r14 = BitVec.ofNat 64 (readByte s (m.bytes (text + k))).2 ∧
      m'.quad val = BitVec.ofInt 64 (readByte s (m.bytes (text + k))).1 ∧ Frame val 8 m m' := by
  let m₁ : Machine := { m with r15 := m.r15 - 1 }
  let m₂ : Machine := m₁.setDil (m₁.bytes (text + m₁.r15.toNat)).toBitVec
  have h15 : m₁.r15 = BitVec.ofNat 64 k := by
    rw [show m₁.r15 = m.r15 - 1 from rfl, hr15, ofNat_succ_sub_one]
  have hplace : m₁.r15.toNat = k := by
    rw [h15, BitVec.toNat_ofNat, Nat.mod_eq_of_lt (by omega)]
  have hdil : m₂.dil = (m.bytes (text + k)).toBitVec := by
    rw [← hplace]
    exact dil_setDil m₁ _
  obtain ⟨m', hrun, hquad, h14, h15', hframe⟩ := character_spec (m := m₂) hs hdil hr14 hv
  have hlast : m'.r15 = BitVec.ofNat 64 k := h15'.trans h15
  refine ⟨m', ?_, hlast, h14, hquad, hframe.bytes, hframe.input, hframe.output⟩
  have hbody : valueBody text val (multTo val) m = (character val (multTo val) m₂ >>= fun m =>
      if m.r15 ≠ 0 then pure (.inl m) else pure (.inr m)) := rfl
  rw [hbody, hrun, ok_bind, hlast]
  by_cases h0 : k = 0
  · rw [if_neg (not_not.mpr ((ofNat_eq_zero_iff (by omega)).mpr h0)), if_pos h0]
    rfl
  · rw [if_pos (mt (ofNat_eq_zero_iff (by omega)).mp h0), if_neg h0]
    rfl

/-! ## Eight bytes -/

/-- The bytes from place `k - 1` down to place 0. -/
def readDown (text : ℕ → UInt8) : ℕ → ℤ × ℕ → ℤ × ℕ
  | 0, s => s
  | k + 1, s => readDown text k (readByte s (text k))

theorem readDown_congr {text text' : ℕ → UInt8} (k : ℕ) :
    ∀ {s : ℤ × ℕ}, (∀ i, i < k → text' i = text i) → readDown text' k s = readDown text k s := by
  induction k with
  | zero => exact fun _ => rfl
  | succ k ih =>
    intro s h
    rw [readDown, readDown, h k (Nat.lt_succ_self k)]
    exact ih fun i hi => h i (Nat.lt_succ_of_lt hi)

/-- The loop, from place `k` on.  The bytes that are read are not those that are written. -/
theorem value_loop {text val : ℕ} (hapart : text + 8 ≤ val ∨ val + 8 ≤ text) (k : ℕ) :
    ∀ {m : Machine} {s : ℤ × ℕ}, k < 8 → s.2 + k < 8 → m.r15 = BitVec.ofNat 64 (k + 1) →
      m.r14 = BitVec.ofNat 64 s.2 → m.quad val = BitVec.ofInt 64 s.1 →
        ∃ m', loop .diverges (valueBody text val (multTo val)) (k + 1) m = .ok m' ∧
          m'.quad val =
            BitVec.ofInt 64 (readDown (fun i => m.bytes (text + i)) (k + 1) s).1 ∧
          Frame val 8 m m' := by
  induction k with
  | zero =>
    intro m s hk hs hr15 hr14 hv
    obtain ⟨m', hbody, -, -, hquad, hframe⟩ := valueBody_spec text val hk hs hr15 hr14 hv
    exact ⟨m', loop_of_leave hbody, hquad, hframe⟩
  | succ k ih =>
    intro m s hk hs hr15 hr14 hv
    obtain ⟨m₁, hbody, hr15₁, hr14₁, hquad, hframe⟩ :=
      valueBody_spec text val hk (by omega) hr15 hr14 hv
    rw [if_neg (Nat.succ_ne_zero k)] at hbody
    have hcount := readByte_snd_le s (m.bytes (text + (k + 1)))
    obtain ⟨m', hloop, hquad', hframe'⟩ := ih (by omega) (by omega) hr15₁ hr14₁ hquad
    have hsame : ∀ i, i < k + 1 → m₁.bytes (text + i) = m.bytes (text + i) :=
      fun i hi => hframe.bytes _ (by omega)
    rw [readDown_congr (k + 1) hsame] at hquad'
    exact ⟨m', (loop_of_continue hbody).trans hloop, hquad', hframe.trans hframe'⟩

/-- **`_getvaluea` and `_getvalueb`**, for any eight bytes. -/
theorem getvalue_spec {text val : ℕ} (hapart : text + 8 ≤ val ∨ val + 8 ≤ text) (m : Machine) :
    ∃ m', getvalue text val (multTo val) m = .ok m' ∧
      m'.quad val = BitVec.ofInt 64 (readDown (fun i => m.bytes (text + i)) 8 (0, 0)).1 ∧
      Frame val 8 m m' := by
  let m₁ : Machine := { m with r15 := 8, r14 := 0, rdi := 0 }
  let m₂ : Machine := m₁.setQuad val 0
  have hframe : Frame val 8 m₁ m₂ := frame_setQuad m₁ val 0
  obtain ⟨m', hloop, hquad, hframe'⟩ := value_loop hapart 7 (m := m₂) (s := (0, 0)) (by decide)
    (by decide) rfl rfl (quad_setQuad_self m₁ val 0)
  have hsame : ∀ i, i < 8 → m₂.bytes (text + i) = m.bytes (text + i) :=
    fun i hi => hframe.bytes _ (by omega)
  rw [readDown_congr 8 hsame] at hquad
  have hwhole := hframe.trans hframe'
  exact ⟨m', hloop, hquad, hwhole.bytes, hwhole.input, hwhole.output⟩

/-! ## Numerals -/

/-- The character of a decimal digit. -/
def digitByte (d : ℕ) : UInt8 := UInt8.ofNat (48 + d)

/-- A numeral: digits, the highest one first, and possibly a minus sign. -/
structure Numeral where
  negative : Bool
  digits : List ℕ
  nonempty : digits ≠ []
  lt_ten : ∀ d ∈ digits, d < 10

namespace Numeral

/-- The numeral as it is typed. -/
def text (x : Numeral) : List UInt8 :=
  (if x.negative then [45] else []) ++ x.digits.map digitByte

/-- The value without the sign. -/
def magnitude (x : Numeral) : ℕ := Nat.ofDigits 10 x.digits.reverse

/-- The value of the numeral. -/
def value (x : Numeral) : ℤ := if x.negative then -(x.magnitude : ℤ) else x.magnitude

end Numeral

theorem digitByte_spec : ∀ d < 10, digitByte d ≠ 0 ∧ digitByte d ≠ 10 ∧ digitByte d ≠ 45 ∧
    (digitByte d - 48).toNat = d := by decide

theorem readByte_digit {d : ℕ} (hd : d < 10) (v : ℤ) (k : ℕ) :
    readByte (v, k) (digitByte d) = (v + d * 10 ^ k, k + 1) := by
  obtain ⟨h0, h10, h45, hvalue⟩ := digitByte_spec d hd
  rw [readByte, if_neg h0, if_neg h10, if_neg h45, hvalue]

/-- Digits are read as the number that they denote. -/
theorem foldr_digits (ds : List ℕ) (h : ∀ d ∈ ds, d < 10) :
    (ds.map digitByte).foldr (fun c s => readByte s c) (0, 0) =
      (((Nat.ofDigits 10 ds.reverse : ℕ) : ℤ), ds.length) := by
  induction ds with
  | nil => rfl
  | cons d ds ih =>
    obtain ⟨hd, hds⟩ := List.forall_mem_cons.mp h
    have hvalue : ((Nat.ofDigits 10 (d :: ds).reverse : ℕ) : ℤ) =
        (Nat.ofDigits 10 ds.reverse : ℕ) + d * 10 ^ ds.length := by
      rw [List.reverse_cons, Nat.ofDigits_append, Nat.ofDigits_singleton, List.length_reverse]
      push_cast
      ring
    rw [List.map_cons, List.foldr_cons, ih hds, readByte_digit hd, hvalue, List.length_cons]

/-- Behind the end of a text there are zero bytes, and they are skipped. -/
theorem readDown_getD (k : ℕ) : ∀ {l : List UInt8} {s : ℤ × ℕ}, l.length ≤ k →
    readDown (fun i => l.getD i 0) k s = l.foldr (fun c s => readByte s c) s := by
  induction k with
  | zero =>
    intro l s hl
    rw [List.length_eq_zero_iff.mp (Nat.le_zero.mp hl)]
    rfl
  | succ k ih =>
    intro l s hl
    rw [readDown]
    rcases Nat.lt_or_ge k l.length with hlt | hge
    · obtain ⟨l, c, rfl⟩ : ∃ l' c, l = l' ++ [c] :=
        ⟨l.dropLast, l.getLast (List.length_pos_iff.mp (by omega)),
          (List.dropLast_append_getLast _).symm⟩
      have hlength : l.length = k := by
        rw [List.length_append, List.length_singleton] at hl hlt
        omega
      have hlast : (l ++ [c]).getD k 0 = c := by
        rw [List.getD_append_right _ _ _ _ hlength.le, hlength, Nat.sub_self]
        rfl
      have hfront : ∀ i, i < k → (l ++ [c]).getD i 0 = l.getD i 0 := fun i hi =>
        List.getD_append _ _ _ _ (by omega)
      rw [hlast, readDown_congr k hfront, ih hlength.le, List.foldr_append, List.foldr_cons,
        List.foldr_nil]
    · have hzero : l.getD k 0 = 0 := by
        rw [List.getD_eq_getElem?_getD, List.getElem?_eq_none hge]
        rfl
      have hskip : readByte s 0 = s := rfl
      rw [hzero, hskip]
      exact ih hge

/-- **A numeral is read as its value**, with a newline behind it or without. -/
theorem readDown_text (x : Numeral) {ending : List UInt8} (hending : ending = [] ∨ ending = [10])
    (hlength : (x.text ++ ending).length ≤ 8) :
    (readDown (fun i => (x.text ++ ending).getD i 0) 8 (0, 0)).1 = x.value := by
  have hskip : ending.foldr (fun c s => readByte s c) ((0 : ℤ), 0) = (0, 0) := by
    rcases hending with rfl | rfl
    · rfl
    · rfl
  rw [readDown_getD 8 hlength, List.foldr_append, hskip, Numeral.text, List.foldr_append,
    foldr_digits x.digits x.lt_ten, Numeral.value, Numeral.magnitude]
  cases x.negative with
  | true => rfl
  | false => rfl

/-- A numeral of a few digits is a small number. -/
theorem magnitude_lt (x : Numeral) {k : ℕ} (hlength : x.text.length ≤ k) :
    x.magnitude < 10 ^ k := by
  have hdigits : x.digits.reverse.length ≤ k := by
    rw [Numeral.text, List.length_append, List.length_map] at hlength
    rw [List.length_reverse]
    omega
  have hlt : x.magnitude < 10 ^ x.digits.reverse.length :=
    Nat.ofDigits_lt_base_pow_length (by decide) fun d hd => x.lt_ten d (List.mem_reverse.mp hd)
  exact hlt.trans_le (Nat.pow_le_pow_right (by decide) hdigits)

theorem natAbs_value (x : Numeral) : x.value.natAbs = x.magnitude := by
  unfold Numeral.value
  split
  · exact Int.natAbs_neg _
  · rfl

/-! ## Both routines -/

/-- The eight bytes at `cell` are the numeral, possibly a newline, and zero bytes. -/
def Padded (bytes : ℕ → UInt8) (cell : ℕ) (x : Numeral) : Prop :=
  ∃ ending : List UInt8, (ending = [] ∨ ending = [10]) ∧
    ∀ i < 8, bytes (cell + i) = (x.text ++ ending).getD i 0

theorem Padded.readDown {bytes : ℕ → UInt8} {cell : ℕ} {x : Numeral} (h : Padded bytes cell x)
    (hlength : x.text.length ≤ 8) :
    (readDown (fun i => bytes (cell + i)) 8 (0, 0)).1 = x.value := by
  obtain ⟨ending, hending, hbytes⟩ := h
  rw [readDown_congr 8 hbytes]
  rcases Nat.lt_or_ge 8 (x.text ++ ending).length with hlong | hshort
  · -- eight characters: there is no room for the newline
    have hlast : x.text.length = 8 := by
      rcases hending with rfl | rfl
      · rw [List.append_nil] at hlong
        omega
      · rw [List.length_append, List.length_singleton] at hlong
        omega
    have hcut : ∀ i, i < 8 → (x.text ++ ending).getD i 0 = (x.text ++ []).getD i 0 := by
      intro i hi
      rw [List.getD_append _ _ _ _ (by omega), List.append_nil]
    rw [readDown_congr 8 hcut, readDown_text x (Or.inl rfl) (by rw [List.append_nil]; omega)]
  · exact readDown_text x hending hshort

/-- A numeral of at most eight characters is a 64-bit number. -/
theorem toInt_value {x : Numeral} (hlength : x.text.length ≤ 8) :
    (BitVec.ofInt 64 x.value).toInt = x.value := by
  have habs := natAbs_value x
  have hlt := magnitude_lt x hlength
  refine BitVec.toInt_ofInt_eq_self (by decide) ?_ ?_
  · norm_num
    omega
  · norm_num
    omega

theorem getvalue_padded {cell val : ℕ} (hapart : cell + 8 ≤ val ∨ val + 8 ≤ cell) {x : Numeral}
    (hlength : x.text.length ≤ 8) {m : Machine} (h : Padded m.bytes cell x) :
    ∃ m', getvalue cell val (multTo val) m = .ok m' ∧ (m'.quad val).toInt = x.value ∧
      Frame val 8 m m' := by
  obtain ⟨m', hrun, hquad, hframe⟩ := getvalue_spec hapart m
  rw [h.readDown hlength] at hquad
  refine ⟨m', hrun, ?_, hframe⟩
  rw [hquad, toInt_value hlength]

/-- **The parsers of the calculator.**  From every numeral of at most eight characters, with a
newline behind it or without, `_getvaluea` and `_getvalueb` leave its value in the eight bytes of
their cell, and change no other byte.  And on the same eight bytes, whatever they are, both leave
the same. -/
theorem values_read :
    (∀ (x : Numeral) (m : Machine), x.text.length ≤ 8 → Padded m.bytes Addr.a x →
      ∃ m', getvaluea m = .ok m' ∧ (m'.quad Addr.vala).toInt = x.value ∧
        Frame Addr.vala 8 m m') ∧
    (∀ (x : Numeral) (m : Machine), x.text.length ≤ 8 → Padded m.bytes Addr.b x →
      ∃ m', getvalueb m = .ok m' ∧ (m'.quad Addr.valb).toInt = x.value ∧
        Frame Addr.valb 8 m m') ∧
    (∀ m₁ m₂ : Machine, (∀ i < 8, m₁.bytes (Addr.a + i) = m₂.bytes (Addr.b + i)) →
      ∃ m₁' m₂', getvaluea m₁ = .ok m₁' ∧ getvalueb m₂ = .ok m₂' ∧
        m₁'.quad Addr.vala = m₂'.quad Addr.valb) := by
  have ha : Addr.a + 8 ≤ Addr.vala ∨ Addr.vala + 8 ≤ Addr.a := by decide
  have hb : Addr.b + 8 ≤ Addr.valb ∨ Addr.valb + 8 ≤ Addr.b := by decide
  refine ⟨fun x m hlength h => getvalue_padded ha hlength h,
    fun x m hlength h => getvalue_padded hb hlength h, fun m₁ m₂ hsame => ?_⟩
  obtain ⟨m₁', hrun₁, hquad₁, -⟩ := getvalue_spec ha m₁
  obtain ⟨m₂', hrun₂, hquad₂, -⟩ := getvalue_spec hb m₂
  refine ⟨m₁', m₂', hrun₁, hrun₂, ?_⟩
  rw [hquad₁, hquad₂, readDown_congr 8 hsame]

/-- A machine with these bytes in `a` and in `b`. -/
def loaded (l : List UInt8) : Machine where
  rax := 0
  rdi := 0
  rsi := 0
  rdx := 0
  r8 := 0
  r11 := 0
  r12 := 0
  r14 := 0
  r15 := 0
  bytes := putBytes (putBytes (fun _ => 0) Addr.a l) Addr.b l
  input := []
  output := []

/-- The numeral "-1234567" and a newline behind it, which is not in the eight bytes. -/
theorem values_read_negative :
    (∃ m', getvaluea (loaded [45, 49, 50, 51, 52, 53, 54, 55]) = .ok m' ∧
      (m'.quad Addr.vala).toInt = -1234567) ∧
    (∃ m', getvalueb (loaded [45, 49, 50, 51, 52, 53, 54, 55]) = .ok m' ∧
      (m'.quad Addr.valb).toInt = -1234567) := by
  let x : Numeral := ⟨true, [1, 2, 3, 4, 5, 6, 7], List.cons_ne_nil _ _, by decide⟩
  have hvalue : x.value = -1234567 := by decide
  obtain ⟨hfirst, hsecond, -⟩ := values_read
  obtain ⟨m₁, hrun₁, hquad₁, -⟩ := hfirst x (loaded [45, 49, 50, 51, 52, 53, 54, 55]) (by decide)
    ⟨[10], Or.inr rfl, by decide⟩
  obtain ⟨m₂, hrun₂, hquad₂, -⟩ := hsecond x (loaded [45, 49, 50, 51, 52, 53, 54, 55]) (by decide)
    ⟨[10], Or.inr rfl, by decide⟩
  exact ⟨⟨m₁, hrun₁, hquad₁.trans hvalue⟩, ⟨m₂, hrun₂, hquad₂.trans hvalue⟩⟩

end Assembly
end SystemsProjects

import SystemsProjects.Assembly.Printing

/-!
# The calculator from end to end

The choice and the two numerals are entered one line a read, moved to their cells, read as
numbers, and added or subtracted.  The sums fit into their cells by far, so that `answer` is the
result (`start_spec`).

What is printed is the canonical numeral of the result, but for the result zero, which gets a
minus sign: the test in front of the sign is for an answer greater than zero
(`calculator_iff`).
-/

namespace SystemsProjects
namespace Assembly

open Lib

variable {f : Machine → BitVec 64}

/-! ## Entering a line -/

/-- A call of `read` that finds a line for which there is room. -/
theorem syscall_read {m : Machine} {line : List UInt8} {lines : List (List UInt8)} {x k : ℕ}
    (hrax : m.rax = 0) (hrdi : m.rdi = 0) (hin : m.input = line :: lines)
    (hrsi : m.rsi = BitVec.ofNat 64 x) (hrdx : m.rdx = BitVec.ofNat 64 k) (hx : x < 2 ^ 64)
    (hk : k < 2 ^ 64) (hline : line.length ≤ k) :
    syscall f m = { m with
      rax := BitVec.ofNat 64 line.length
      r11 := f m
      bytes := putBytes m.bytes x line
      input := lines } := by
  have hplace : m.rsi.toNat = x := by
    rw [hrsi, BitVec.toNat_ofNat, Nat.mod_eq_of_lt hx]
  have hcount : m.rdx.toNat = k := by
    rw [hrdx, BitVec.toNat_ofNat, Nat.mod_eq_of_lt hk]
  unfold syscall
  rw [if_pos ⟨hrax, hrdi⟩, hin]
  simp only [hplace, hcount, List.take_of_length_le hline, List.drop_of_length_le hline]
  rfl

/-- **A line is entered**: its characters are in the cell, with zero bytes behind them. -/
theorem enter_spec (cell : ℕ) {m : Machine} {line : List UInt8} {lines : List (List UInt8)}
    (hin : m.input = line :: lines) (hline : line.length ≤ 8) :
    (enter f cell m).input = lines ∧ (enter f cell m).output = m.output ∧
      (∀ i, i < 8 → (enter f cell m).bytes (cell + i) = line.getD i 0) ∧
      ∀ y, (y < cell ∨ cell + 8 ≤ y) → (y < Addr.n ∨ Addr.n + 20 ≤ y) →
        (enter f cell m).bytes y = m.bytes y := by
  let m₁ : Machine := { m with rax := 0, rdi := 0 }
  let m₂ : Machine := m₁.setQuad Addr.n 0
  let m₃ : Machine := { m₂ with rsi := BitVec.ofNat 64 Addr.n, rdx := 20 }
  have hcall : syscall f m₃ = _ := syscall_read (x := Addr.n) (k := 20) rfl rfl hin rfl rfl
    (by decide) (by decide) (by omega)
  generalize hm₄ : syscall f m₃ = m₄ at hcall
  have hentered : enter f cell m =
      Machine.setQuad { m₄ with r11 := m₄.quad Addr.n, r12 := m₄.quad Addr.n } cell
        (m₄.quad Addr.n) := by
    rw [← hm₄]
    rfl
  have hbytes₄ : m₄.bytes = putBytes m₂.bytes Addr.n line := by
    rw [hcall]
  have hread : ∀ i, i < 8 → m₄.bytes (Addr.n + i) = line.getD i 0 := by
    intro i hi
    rw [hbytes₄, putBytes]
    by_cases hlt : i < line.length
    · rw [if_pos (by omega), Nat.add_sub_cancel_left]
    · have hzero : m₂.bytes (Addr.n + i) = 0 := by
        show put m₁.bytes Addr.n 8 0 (Addr.n + i) = 0
        rw [put_of_mem (by omega) (by omega), Nat.zero_div]
        rfl
      rw [if_neg (by omega), hzero, List.getD_eq_getElem?_getD,
        List.getElem?_eq_none (by omega)]
      rfl
  have hvalue : (m₄.quad Addr.n).toNat = value m₄.bytes Addr.n 8 := by
    have hlt : value m₄.bytes Addr.n 8 < 256 ^ 8 := value_lt
    unfold Machine.quad
    rw [BitVec.toNat_ofNat, Nat.mod_eq_of_lt (by omega)]
  rw [hentered]
  refine ⟨?_, ?_, fun i hi => ?_, fun y hy hy' => ?_⟩
  · rw [input_setQuad, hcall]
  · rw [output_setQuad, hcall]
    rfl
  · have hbyte : UInt8.ofNat (value m₄.bytes Addr.n 8 / 256 ^ i) = m₄.bytes (Addr.n + i) :=
      byte_of_value hi
    rw [← hread i hi, ← hbyte, ← hvalue]
    exact (put_of_mem (by omega) (by omega)).trans (by rw [Nat.add_sub_cancel_left])
  · rw [bytes_setQuad hy]
    show m₄.bytes y = _
    rw [hbytes₄, putBytes, if_neg (by omega)]
    exact bytes_setQuad (by omega) m₁ 0

/-! ## Before the numbers -/

theorem printWelcome_spec (m : Machine) : (printWelcome f m).bytes = m.bytes ∧
    (printWelcome f m).input = m.input ∧
    (printWelcome f m).output = m.output ++ bytesAt m.bytes Addr.welcomeStr 42 := by
  have hcall : printWelcome f m = _ :=
    syscall_write (x := Addr.welcomeStr) (k := 42) rfl rfl rfl rfl (by decide) (by decide)
  rw [hcall]
  exact ⟨rfl, rfl, rfl⟩

theorem writeEndLine_spec (m : Machine) :
    (writeEndLine f m).output = m.output ++ [m.bytes Addr.endlineString] := by
  have hcall : writeEndLine f m = _ :=
    syscall_write (x := Addr.endlineString) (k := 1) rfl rfl rfl rfl (by decide) (by decide)
  rw [hcall]
  rfl

/-- The cell is `n` before a line is entered, once more than for the first line. -/
theorem enter_next (cell : ℕ) {m : Machine} {line : List UInt8} {lines : List (List UInt8)}
    (hin : m.input = line :: lines) (hline : line.length ≤ 8) :
    (enter f cell (m.setQuad Addr.n 0)).input = lines ∧
      (enter f cell (m.setQuad Addr.n 0)).output = m.output ∧
      (∀ i, i < 8 → (enter f cell (m.setQuad Addr.n 0)).bytes (cell + i) = line.getD i 0) ∧
      ∀ y, (y < cell ∨ cell + 8 ≤ y) → y < Addr.n →
        (enter f cell (m.setQuad Addr.n 0)).bytes y = m.bytes y := by
  obtain ⟨hinput, houtput, hcell, hframe⟩ :=
    enter_spec (f := f) (m := m.setQuad Addr.n 0) cell hin hline
  exact ⟨hinput, houtput, hcell, fun y hy hn =>
    (hframe y hy (Or.inl hn)).trans (bytes_setQuad (Or.inl hn) m 0)⟩

/-- `_start` up to the calls of `_getvaluea` and `_getvalueb`. -/
def entered (flags : Machine → BitVec 64) (m : Machine) : Machine :=
  let m := printWelcome flags m
  let m := enter flags Addr.choice m
  let m := enter flags Addr.a (m.setQuad Addr.n 0)
  enter flags Addr.b (m.setQuad Addr.n 0)

/-- The three lines are in their cells, and the strings are still there. -/
theorem entered_spec {m : Machine} {l s t : List UInt8} {rest : List (List UInt8)}
    (hin : m.input = l :: s :: t :: rest) (hl : l.length ≤ 8) (hs : s.length ≤ 8)
    (ht : t.length ≤ 8) :
    (entered f m).output = m.output ++ bytesAt m.bytes Addr.welcomeStr 42 ∧
      (∀ i, i < 8 → (entered f m).bytes (Addr.choice + i) = l.getD i 0) ∧
      (∀ i, i < 8 → (entered f m).bytes (Addr.a + i) = s.getD i 0) ∧
      (∀ i, i < 8 → (entered f m).bytes (Addr.b + i) = t.getD i 0) ∧
      ∀ y, y < Addr.choice → (entered f m).bytes y = m.bytes y := by
  obtain ⟨hbytes₀, hin₀, hout₀⟩ := printWelcome_spec (f := f) m
  obtain ⟨hin₁, hout₁, hcell₁, hframe₁⟩ :=
    enter_spec (f := f) Addr.choice (hin₀.trans hin) hl
  obtain ⟨hin₂, hout₂, hcell₂, hframe₂⟩ := enter_next (f := f) Addr.a hin₁ hs
  obtain ⟨hin₃, hout₃, hcell₃, hframe₃⟩ := enter_next (f := f) Addr.b hin₂ ht
  have hlayout : Addr.choice + 8 = Addr.a ∧ Addr.a + 8 = Addr.b ∧ Addr.b + 8 < Addr.n :=
    ⟨rfl, rfl, by decide⟩
  refine ⟨?_, fun i hi => ?_, fun i hi => ?_, hcell₃, fun y hy => ?_⟩
  · exact hout₃.trans (hout₂.trans (hout₁.trans hout₀))
  · exact (hframe₃ _ (by omega) (by omega)).trans
      ((hframe₂ _ (by omega) (by omega)).trans (hcell₁ i hi))
  · exact (hframe₃ _ (by omega) (by omega)).trans (hcell₂ i hi)
  · rw [← hbytes₀]
    exact (hframe₃ y (by omega) (by omega)).trans
      ((hframe₂ y (by omega) (by omega)).trans (hframe₁ y (by omega) (by omega)))

/-! ## The operation -/

/-- What is entered first. -/
inductive Choice where
  | addition
  | subtraction
  deriving DecidableEq, Repr

namespace Choice

/-- What is typed for the choice. -/
def line : Choice → List UInt8
  | addition => [49, 10]
  | subtraction => [50, 10]

/-- What the choice computes. -/
def result : Choice → ℤ → ℤ → ℤ
  | addition, v, w => v + w
  | subtraction, v, w => v - w

/-- The number that the eight bytes hold. -/
def cell : Choice → ℕ
  | addition => 2609
  | subtraction => 2610

theorem cell_spec (c : Choice) :
    ∀ i < 8, c.line.getD i 0 = UInt8.ofNat (c.cell / 256 ^ i) := by
  cases c with
  | addition => decide
  | subtraction => decide

end Choice

/-- Which of the two is called, and what it returns. -/
theorem operation_spec (c : Choice) {m : Machine} {v w : ℤ}
    (hchoice : ∀ i, i < 8 → m.bytes (Addr.choice + i) = c.line.getD i 0)
    (hv : m.quad Addr.vala = BitVec.ofInt 64 v) (hw : m.quad Addr.valb = BitVec.ofInt 64 w) :
    (if m.quad Addr.choice = 2610 then subtract m else add m).rax =
      BitVec.ofInt 64 (c.result v w) := by
  have hvalue : m.quad Addr.choice = BitVec.ofNat 64 c.cell := by
    unfold Machine.quad
    rw [value_of_digits fun i hi => (hchoice i hi).trans (c.cell_spec i hi)]
    cases c with
    | addition => rfl
    | subtraction => rfl
  rw [hvalue]
  cases c with
  | addition =>
    rw [if_neg (by decide)]
    show m.quad Addr.valb + m.quad Addr.vala = _
    rw [hv, hw, Choice.result, BitVec.ofInt_add, BitVec.add_comm]
  | subtraction =>
    rw [if_pos (by decide)]
    show m.quad Addr.vala - m.quad Addr.valb = _
    rw [hv, hw, Choice.result, Int.sub_eq_add_neg, BitVec.ofInt_add, BitVec.ofInt_neg,
      BitVec.sub_eq_add_neg]

theorem operation_frame (m : Machine) :
    (if m.quad Addr.choice = 2610 then subtract m else add m).bytes = m.bytes ∧
      (if m.quad Addr.choice = 2610 then subtract m else add m).output = m.output := by
  by_cases h : m.quad Addr.choice = 2610
  · rw [if_pos h]
    dsimp only [subtract]
    exact ⟨rfl, rfl⟩
  · rw [if_neg h]
    dsimp only [add]
    exact ⟨rfl, rfl⟩

/-! ## From end to end -/

/-- The result is small. -/
theorem natAbs_result_lt (c : Choice) {x y : Numeral} (hx : x.text.length ≤ 7)
    (hy : y.text.length ≤ 7) : (c.result x.value y.value).natAbs < 2 ^ 62 := by
  have hxlt := magnitude_lt x hx
  have hylt := magnitude_lt y hy
  have hxabs := natAbs_value x
  have hyabs := natAbs_value y
  cases c with
  | addition =>
    have hle := Int.natAbs_add_le x.value y.value
    rw [Choice.result]
    omega
  | subtraction =>
    have hle := Int.natAbs_sub_le x.value y.value
    rw [Choice.result]
    omega

/-- The newline is behind the numeral. -/
theorem length_line {x : Numeral} (hx : x.text.length ≤ 7) : (x.text ++ [10]).length ≤ 8 := by
  rw [List.length_append, List.length_singleton]
  omega

theorem start_bind (m : Machine) : start f m =
    (getvalue Addr.a Addr.vala (multTo Addr.vala) (entered f m) >>= fun m =>
      getvalue Addr.b Addr.valb (multTo Addr.valb) m >>= fun m =>
        toascii f (Machine.setQuad (if m.quad Addr.choice = 2610 then subtract m else add m)
          Addr.answer (if m.quad Addr.choice = 2610 then subtract m else add m).rax) >>= fun m =>
            pure (writeEndLine f m)) := rfl

/-- **What is printed**: the prompt, a minus sign unless the result is greater than zero, the
digits, and a newline. -/
theorem start_spec (c : Choice) {x y : Numeral} (hx : x.text.length ≤ 7)
    (hy : y.text.length ≤ 7) {m : Machine} (hm : Started m) {rest : List (List UInt8)}
    (hin : m.input = c.line :: (x.text ++ [10]) :: (y.text ++ [10]) :: rest) :
    ∃ m', start f m = .ok m' ∧ m'.output = welcome ++
      ((if 0 < c.result x.value y.value then [] else [45]) ++
        (decimalDigits (c.result x.value y.value).natAbs).reverse.map digitByte) ++ [10] := by
  have hlayout : Addr.b + 8 ≤ Addr.vala ∧ Addr.a + 8 ≤ Addr.vala ∧ Addr.choice + 8 ≤ Addr.vala ∧
      Addr.vala + 8 = Addr.valb ∧ Addr.valb + 8 = Addr.answer ∧
      Addr.negativeString < Addr.choice ∧ Addr.endlineString < Addr.choice := by decide
  obtain ⟨hstrA, hstrB, hcA, hcB, hcC, hneg, hend⟩ := hlayout
  have hline : c.line.length ≤ 8 := by
    cases c with
    | addition => decide
    | subtraction => decide
  obtain ⟨hout₀, hchoice₀, ha₀, hb₀, hstrings₀⟩ :=
    entered_spec (f := f) hin hline (length_line hx) (length_line hy)
  -- the first number
  obtain ⟨m₁, hrun₁, hquad₁, hframe₁⟩ := getvalue_spec (Or.inl hstrB) (entered f m)
  rw [readDown_congr 8 ha₀, readDown_text x (Or.inr rfl) (length_line hx)] at hquad₁
  -- the second number
  obtain ⟨m₂, hrun₂, hquad₂, hframe₂⟩ :=
    getvalue_spec (show Addr.b + 8 ≤ Addr.valb ∨ _ by omega) m₁
  have hb₁ : ∀ i, i < 8 → m₁.bytes (Addr.b + i) = (y.text ++ [10]).getD i 0 := fun i hi =>
    (hframe₁.bytes _ (by omega)).trans (hb₀ i hi)
  rw [readDown_congr 8 hb₁, readDown_text y (Or.inr rfl) (length_line hy)] at hquad₂
  -- the operation
  have hkept : ∀ z, z < Addr.vala → m₂.bytes z = (entered f m).bytes z := fun z hz =>
    (hframe₂.bytes z (by omega)).trans (hframe₁.bytes z (by omega))
  have hrax := operation_spec c
    (fun i hi => (hkept (Addr.choice + i) (by omega)).trans (hchoice₀ i hi))
    ((hframe₂.quad (by omega)).trans hquad₁) hquad₂
  obtain ⟨hbytes₃, hout₃⟩ := operation_frame m₂
  have hrest := start_bind (f := f) m
  rw [hrun₁, ok_bind, hrun₂, ok_bind] at hrest
  generalize (if m₂.quad Addr.choice = 2610 then subtract m₂ else add m₂) = m₃ at *
  have hstrings : ∀ z, z < Addr.choice → (m₃.setQuad Addr.answer m₃.rax).bytes z = m.bytes z :=
    fun z hz => by
      rw [bytes_setQuad (by omega), hbytes₃, hkept z (by omega), hstrings₀ z hz]
  -- the output
  have hminus : m.bytes Addr.negativeString = 45 := congrArg (fun l => l.headD 0) hm.negative
  have hnewline : m.bytes Addr.endlineString = 10 := congrArg (fun l => l.headD 0) hm.endline
  obtain ⟨m₄, hrun₄, hout₄, hframe₄, -⟩ := toascii_spec (f := f) (natAbs_result_lt c hx hy)
    ((quad_setQuad_self m₃ _ _).trans hrax) ((hstrings _ hneg).trans hminus)
  rw [hrun₄, ok_bind] at hrest
  refine ⟨writeEndLine f m₄, hrest, ?_⟩
  rw [writeEndLine_spec, hframe₄ _ (by omega), hstrings _ hend, hnewline, hout₄, output_setQuad,
    hout₃, hframe₂.output, hframe₁.output, hout₀, hm.output, hm.welcome]
  rfl

/-- The canonical numeral is printed unless the result is zero. -/
theorem printed_eq_iff {z : ℤ} {l : List UInt8}
    (hl : l = welcome ++ ((if 0 < z then [] else [45]) ++
      (decimalDigits z.natAbs).reverse.map digitByte) ++ [10]) :
    l = welcome ++ numeral z ++ [10] ↔ z ≠ 0 := by
  rw [hl, numeral, List.append_left_inj, List.append_right_inj, List.append_left_inj]
  constructor
  · rintro hsign rfl
    exact absurd hsign (by decide)
  · intro hz
    rcases lt_or_gt_of_ne hz with hneg | hpos
    · rw [if_neg (by omega), if_pos hneg]
    · rw [if_pos hpos, if_neg (by omega)]

/-- When the result is not zero. -/
theorem result_ne_zero_iff (c : Choice) (v w : ℤ) :
    c.result v w ≠ 0 ↔ (c = .addition → v ≠ -w) ∧ (c = .subtraction → v ≠ w) := by
  cases c with
  | addition =>
    rw [Choice.result]
    constructor
    · exact fun h => ⟨fun _ => by omega, fun hc => absurd hc (by decide)⟩
    · exact fun h => by have := h.1 rfl; omega
  | subtraction =>
    rw [Choice.result]
    constructor
    · exact fun h => ⟨fun hc => absurd hc (by decide), fun _ => by omega⟩
    · exact fun h => by have := h.2 rfl; omega

/-- **The calculator prints the canonical numeral of the result, and a newline, exactly when the
numbers are not opposite for a sum, and not equal for a difference.** -/
theorem calculator_iff (f : Machine → BitVec 64) (c : Choice) {x y : Numeral}
    (hx : x.text.length ≤ 7) (hy : y.text.length ≤ 7) {m : Machine} (hm : Started m)
    {rest : List (List UInt8)}
    (hin : m.input = c.line :: (x.text ++ [10]) :: (y.text ++ [10]) :: rest) :
    (∃ m', start f m = .ok m' ∧
        m'.output = welcome ++ numeral (c.result x.value y.value) ++ [10]) ↔
      (c = .addition → x.value ≠ -y.value) ∧ (c = .subtraction → x.value ≠ y.value) := by
  obtain ⟨m', hrun, hout⟩ := start_spec (f := f) c hx hy hm hin
  rw [← result_ne_zero_iff, ← printed_eq_iff hout]
  constructor
  · rintro ⟨m'', hrun', hout'⟩
    obtain rfl : m' = m'' := Except.ok.inj (hrun.symm.trans hrun')
    exact hout'
  · exact fun h => ⟨m', hrun, h⟩

/-- The process with these lines in front of it. -/
def process (lines : List (List UInt8)) : Machine where
  rax := 0
  rdi := 0
  rsi := 0
  rdx := 0
  r8 := 0
  r11 := 0
  r12 := 0
  r14 := 0
  r15 := 0
  bytes := putBytes (putBytes (putBytes (fun _ => 0) Addr.welcomeStr welcome)
    Addr.negativeString [45, 0]) Addr.endlineString [10, 0]
  input := lines
  output := []

theorem process_started (lines : List (List UInt8)) : Started (process lines) :=
  ⟨by rfl, by rfl, by rfl, rfl⟩

/-- One digit. -/
def oneDigit (d : ℕ) (hd : d < 10) : Numeral :=
  ⟨false, [d], List.cons_ne_nil _ _, fun _ he => (List.mem_singleton.mp he) ▸ hd⟩

theorem calculator_six_plus_five : ∃ m', start (fun _ => 0)
    (process [[49, 10], [54, 10], [53, 10]]) = .ok m' ∧
      m'.output = welcome ++ [49, 49] ++ [10] := by
  let x : Numeral := oneDigit 6 (by decide)
  let y : Numeral := oneDigit 5 (by decide)
  have heleven : numeral (Choice.addition.result x.value y.value) = [49, 49] := by
    show numeral 11 = _
    rw [numeral, show (11 : ℤ).natAbs = 11 from rfl, decimalDigits_of_ge (by decide),
      decimalDigits_of_lt (by decide)]
    rfl
  obtain ⟨m', hrun, hout⟩ := (calculator_iff (fun _ => 0) .addition (x := x) (y := y)
    (m := process [[49, 10], [54, 10], [53, 10]]) (by decide) (by decide) (process_started _)
    rfl).mpr ⟨fun _ => by decide, fun hc => absurd hc (by decide)⟩
  rw [heleven] at hout
  exact ⟨m', hrun, hout⟩

/-- The difference of equal numbers gets a minus sign. -/
theorem five_minus_five : ¬ ∀ (f : Machine → BitVec 64) (c : Choice) (x y : Numeral) (m : Machine),
    x.text.length ≤ 7 → y.text.length ≤ 7 → Started m →
      m.input = [c.line, x.text ++ [10], y.text ++ [10]] →
        ∃ m', start f m = .ok m' ∧
          m'.output = welcome ++ numeral (c.result x.value y.value) ++ [10] := by
  intro h
  let x : Numeral := oneDigit 5 (by decide)
  let m : Machine := process [[50, 10], [53, 10], [53, 10]]
  have hm : Started m := process_started _
  obtain ⟨m', hrun, hout⟩ :=
    h (fun _ => 0) .subtraction x x m (by decide) (by decide) hm rfl
  obtain ⟨m'', hrun', hout'⟩ :=
    start_spec (f := fun _ => 0) .subtraction (x := x) (y := x) (by decide) (by decide) hm rfl
  obtain rfl : m' = m'' := Except.ok.inj (hrun.symm.trans hrun')
  exact absurd ((printed_eq_iff hout').mp hout) (by decide)

end Assembly
end SystemsProjects

import SystemsProjects.CacheSimulator.TraceFile

/-!
# How many lines `realisticTrace` writes

`realisticTrace` tosses a coin: it writes one random line, or it writes three random lines ten
times over.  Inside such a jump it compares the number of lines with `size` before every three
lines only, so that the last jump may write one or two lines more than there is room for.  The
table of the simulator has no row for them.

`nextDraw` follows the coin: how many calls of `rand()` have been made and how many lines are
left.  `exact_lines_iff` says that the file has `size` lines if and only if every draw fits.
-/

namespace SystemsProjects
namespace CacheSimulator

open Lib

/-! ## The code -/

/-- What is left of the ten rounds of the inner loop, on `i` and the file. -/
def jumpLoop (bin1 bin2 bin3 : List Char) (size : ℕ) :
    ℕ → ℕ × List Char → Except Fault (ℕ × List Char)
  | 0, s => pure s
  | j + 1, (i, file) =>
      if i < size then
        if i + 3 ≤ 2 ^ 31 - 1 then
          jumpLoop bin1 bin2 bin3 size j
            (i + 3, printLine (printLine (printLine file bin1) bin2) bin3)
        else throw .overflow
      else pure (i, file)

/-- The body of the outer loop, on the number of calls of `rand()` so far, `i` and the file. -/
def realisticBody (rand : ℕ → ℕ) (size range : ℕ) : ℕ × ℕ × List Char →
    Except Fault (ℕ × ℕ × List Char ⊕ List Char)
  | (calls, i, file) =>
    if i < size then
      if rand calls % 2 = 0 then do
        let bin ← intToBinaryString (rand (calls + 1) % range : ℕ) bitwidth
        pure (.inl (calls + 2, i + 1, printLine file bin))
      else do
        let bin1 ← intToBinaryString (rand (calls + 1) % range : ℕ) bitwidth
        let bin2 ← intToBinaryString (rand (calls + 2) % range : ℕ) bitwidth
        let bin3 ← intToBinaryString (rand (calls + 3) % range : ℕ) bitwidth
        let (i, file) ← jumpLoop bin1 bin2 bin3 size 10 (i, file)
        pure (.inl (calls + 4, i, file))
    else pure (.inr file)

/-- Runs of one random value each, until the file has `size` lines. -/
def realisticTrace (rand : ℕ → ℕ) (size range : ℕ) : Except Fault (List Char) :=
  loop .diverges (realisticBody rand size range) (size + 1) (0, 0, [])

/-! ## The condition -/

/-- The calls of `rand()` and the lines that are left, one toss later. -/
def nextDraw (rand : ℕ → ℕ) : ℕ × ℕ → ℕ × ℕ
  | (calls, left) =>
    if rand calls % 2 = 0 then (calls + 2, left - 1) else (calls + 4, left - 30)

/-- A draw fits: its values have eight bits, and a jump is not cut off inside of three lines. -/
def DrawFits (rand : ℕ → ℕ) (range : ℕ) : ℕ × ℕ → Prop
  | (calls, left) =>
    if rand calls % 2 = 0 then rand (calls + 1) % range < 256
    else rand (calls + 1) % range < 256 ∧ rand (calls + 2) % range < 256 ∧
      rand (calls + 3) % range < 256 ∧ (30 ≤ left ∨ 3 ∣ left)

/-- Every draw fits as long as lines are left. -/
def AllFit (rand : ℕ → ℕ) (range : ℕ) (start : ℕ × ℕ) : Prop :=
  ∀ k, 0 < ((nextDraw rand)^[k] start).2 → DrawFits rand range ((nextDraw rand)^[k] start)

theorem allFit_step {rand : ℕ → ℕ} {range calls left : ℕ} (h : 0 < left) :
    AllFit rand range (calls, left) ↔
      DrawFits rand range (calls, left) ∧ AllFit rand range (nextDraw rand (calls, left)) := by
  constructor
  · exact fun hall => ⟨hall 0 h, fun k => hall (k + 1)⟩
  · rintro ⟨hfirst, hrest⟩ k
    cases k with
    | zero => exact fun _ => hfirst
    | succ k => exact hrest k

theorem none_left {rand : ℕ → ℕ} (k : ℕ) :
    ∀ calls : ℕ, ((nextDraw rand)^[k] (calls, 0)).2 = 0 := by
  induction k with
  | zero => exact fun _ => rfl
  | succ k ih =>
    intro calls
    rw [Function.iterate_succ_apply, nextDraw]
    split
    · exact ih _
    · exact ih _

theorem allFit_of_none_left {rand : ℕ → ℕ} {range : ℕ} (calls : ℕ) :
    AllFit rand range (calls, 0) := fun k hleft =>
  absurd hleft (Nat.not_lt_of_le (none_left k calls).le)

/-! ## Files by the number of their lines -/

/-- A file of `i` lines of eight bits. -/
def Written (i : ℕ) (file : List Char) : Prop :=
  ∃ lines : List (List Char), (∀ l ∈ lines, IsAddress l) ∧ lines.length = i ∧ file = text lines

theorem written_nil : Written 0 [] := ⟨[], by simp, rfl, rfl⟩

theorem Written.line {i : ℕ} {file bin : List Char} (h : Written i file) (hbin : IsAddress bin) :
    Written (i + 1) (printLine file bin) := by
  obtain ⟨lines, hlines, hlength, rfl⟩ := h
  refine ⟨lines ++ [bin], ?_, by rw [List.length_append, hlength]; rfl, ?_⟩
  · intro l hl
    rcases List.mem_append.mp hl with hl | hl
    · exact hlines l hl
    · rw [List.mem_singleton.mp hl]
      exact hbin
  · unfold printLine text
    rw [List.flatMap_append, List.flatMap_singleton]

/-- The newlines are counted. -/
theorem Written.count {i : ℕ} {file : List Char} (h : Written i file) :
    file.count '\n' = i := by
  obtain ⟨lines, hlines, rfl, rfl⟩ := h
  induction lines with
  | nil => rfl
  | cons l lines ih =>
    obtain ⟨hl, hrest⟩ := List.forall_mem_cons.mp hlines
    have hnone : l.count '\n' = 0 :=
      List.count_eq_zero.mpr fun hmem => hl.ne_newline hmem rfl
    rw [text_cons, List.count_append, List.count_cons_self, hnone, ih hrest, List.length_cons,
      Nat.zero_add]

/-! ## A jump -/

variable {bin1 bin2 bin3 : List Char} {size : ℕ}

/-- The lines are counted by `i`. -/
theorem jumpLoop_written (h₁ : IsAddress bin1) (h₂ : IsAddress bin2) (h₃ : IsAddress bin3)
    (j : ℕ) : ∀ {i i' : ℕ} {file file' : List Char}, Written i file →
      jumpLoop bin1 bin2 bin3 size j (i, file) = .ok (i', file') → Written i' file' := by
  induction j with
  | zero =>
    intro i i' file file' hfile h
    cases h
    exact hfile
  | succ j ih =>
    intro i i' file file' hfile h
    unfold jumpLoop at h
    split at h
    · split at h
      · exact ih (((hfile.line h₁).line h₂).line h₃) h
      · cases h
    · cases h
      exact hfile

/-- **A jump that fits** writes three lines a round, until no line is left. -/
theorem jumpLoop_of_fits (hsize : size ≤ 2 ^ 31 - 1) (j : ℕ) :
    ∀ {i : ℕ} {file : List Char}, i ≤ size → 3 * j ≤ size - i ∨ 3 ∣ size - i →
      ∃ file', jumpLoop bin1 bin2 bin3 size j (i, file) =
        .ok (i + min (3 * j) (size - i), file') := by
  induction j with
  | zero =>
    intro i file _ _
    rw [Nat.mul_zero, Nat.zero_min, Nat.add_zero]
    exact ⟨file, rfl⟩
  | succ j ih =>
    intro i file hi hfits
    unfold jumpLoop
    by_cases hlt : i < size
    · have hthree : i + 3 ≤ size := by omega
      obtain ⟨file', h⟩ := @ih (i + 3) (printLine (printLine (printLine file bin1) bin2) bin3)
        hthree (by omega)
      have hcount : i + 3 + min (3 * j) (size - (i + 3)) =
          i + min (3 * (j + 1)) (size - i) := by omega
      rw [if_pos hlt, if_pos (hthree.trans hsize), h, hcount]
      exact ⟨file', rfl⟩
    · have hcount : i = i + min (3 * (j + 1)) (size - i) := by omega
      rw [if_neg hlt, ← hcount]
      exact ⟨file, rfl⟩

/-- **A jump that does not fit** writes too many lines. -/
theorem lt_of_jumpLoop (j : ℕ) : ∀ {i i' : ℕ} {file file' : List Char},
    size - i < 3 * j → ¬ 3 ∣ size - i →
      jumpLoop bin1 bin2 bin3 size j (i, file) = .ok (i', file') → size < i' := by
  induction j with
  | zero => exact fun h => absurd h (Nat.not_lt_zero _)
  | succ j ih =>
    intro i i' file file' hcut hdvd h
    unfold jumpLoop at h
    split at h
    · rename_i hlt
      split at h
      · by_cases hthree : i + 3 ≤ size
        · exact ih (by omega) (by omega) h
        · -- one or two lines were left, and the next round does not take place
          have hstop : ∀ (j : ℕ) (file : List Char), jumpLoop bin1 bin2 bin3 size j
              (i + 3, file) = .ok (i + 3, file) := by
            intro j file
            cases j with
            | zero => rfl
            | succ j =>
              unfold jumpLoop
              rw [if_neg (by omega)]
              rfl
          rw [hstop] at h
          cases h
          omega
      · cases h
    · rename_i hge
      exact absurd (Nat.sub_eq_zero_of_le (Nat.le_of_not_lt hge) ▸ Nat.dvd_zero 3) hdvd

/-! ## The whole file -/

variable {rand : ℕ → ℕ} {range : ℕ}

/-- The bit string of a random value. -/
theorem draw_eq (n : ℕ) :
    intToBinaryString (n % range : ℕ) bitwidth =
      if n % range < 256 then .ok (bitString 8 (n % range)) else .error .outOfBounds :=
  intToBinaryString_eq _ (by decide)

theorem realisticBody_done {calls i : ℕ} {file : List Char} (h : size ≤ i) :
    realisticBody rand size range (calls, i, file) = .ok (.inr file) := by
  rw [realisticBody, if_neg (Nat.not_lt_of_le h)]
  rfl

theorem realisticBody_single {calls i : ℕ} {file : List Char} (hlt : i < size)
    (hcoin : rand calls % 2 = 0) :
    realisticBody rand size range (calls, i, file) =
      if rand (calls + 1) % range < 256 then
        .ok (.inl (calls + 2, i + 1,
          printLine file (bitString 8 (rand (calls + 1) % range))))
      else .error .outOfBounds := by
  rw [realisticBody, if_pos hlt, if_pos hcoin, draw_eq]
  split <;> rfl

theorem realisticBody_jump {calls i : ℕ} {file : List Char} (hlt : i < size)
    (hcoin : rand calls % 2 ≠ 0) :
    realisticBody rand size range (calls, i, file) =
      if rand (calls + 1) % range < 256 ∧ rand (calls + 2) % range < 256 ∧
          rand (calls + 3) % range < 256 then do
        let s ← jumpLoop (bitString 8 (rand (calls + 1) % range))
          (bitString 8 (rand (calls + 2) % range)) (bitString 8 (rand (calls + 3) % range))
          size 10 (i, file)
        pure (.inl (calls + 4, s))
      else .error .outOfBounds := by
  rw [realisticBody, if_pos hlt, if_neg hcoin, draw_eq, draw_eq, draw_eq]
  by_cases h₁ : rand (calls + 1) % range < 256
  · by_cases h₂ : rand (calls + 2) % range < 256
    · by_cases h₃ : rand (calls + 3) % range < 256
      · rw [if_pos h₁, if_pos h₂, if_pos h₃, if_pos ⟨h₁, h₂, h₃⟩]
        rfl
      · rw [if_pos h₁, if_pos h₂, if_neg h₃, if_neg (not_and_of_not_right _
          (not_and_of_not_right _ h₃))]
        rfl
    · rw [if_pos h₁, if_neg h₂, if_neg (not_and_of_not_right _ (not_and_of_not_left _ h₂))]
      rfl
  · rw [if_neg h₁, if_neg (not_and_of_not_left _ h₁)]
    rfl

/-- **The body keeps count** of the lines. -/
theorem realisticBody_written {calls i : ℕ} {file : List Char} (hfile : Written i file)
    {r : ℕ × ℕ × List Char ⊕ List Char}
    (h : realisticBody rand size range (calls, i, file) = .ok r) :
    (∃ calls' i' file', r = .inl (calls', i', file') ∧ Written i' file') ∨
      r = .inr file := by
  by_cases hlt : i < size
  · by_cases hcoin : rand calls % 2 = 0
    · rw [realisticBody_single hlt hcoin] at h
      split at h
      · cases h
        exact Or.inl ⟨_, _, _, rfl, hfile.line (isAddress_bitString _)⟩
      · cases h
    · rw [realisticBody_jump hlt hcoin] at h
      split at h
      · obtain ⟨⟨i', file'⟩, hjump, h⟩ := bind_eq_ok.mp h
        cases h
        exact Or.inl ⟨_, _, _, rfl, jumpLoop_written (isAddress_bitString _)
          (isAddress_bitString _) (isAddress_bitString _) 10 hfile hjump⟩
      · cases h
  · rw [realisticBody_done (Nat.le_of_not_lt hlt)] at h
    cases h
    exact Or.inr rfl

/-- The file has some number of lines, if there is one. -/
theorem written_of_realisticTrace {file : List Char}
    (h : realisticTrace rand size range = .ok file) : ∃ i, Written i file := by
  have hcontinue : ∀ s s' : ℕ × ℕ × List Char, Written s.2.1 s.2.2 →
      realisticBody rand size range s = .ok (.inl s') → Written s'.2.1 s'.2.2 := by
    rintro ⟨calls, i, file⟩ s' hfile h
    rcases realisticBody_written hfile h with ⟨calls', i', file', hr, hfile'⟩ | hr
    · cases hr
      exact hfile'
    · cases hr
  refine loop_preserves (I := fun s : ℕ × ℕ × List Char => Written s.2.1 s.2.2)
    (Q := fun file => ∃ i, Written i file) hcontinue ?_ written_nil h
  rintro ⟨calls, i, file⟩ file' hfile h
  rcases realisticBody_written hfile h with ⟨_, _, _, hr, _⟩ | hr
  · cases hr
  · cases hr
    exact ⟨i, hfile⟩

/-- The loop comes to a file of `size` lines. -/
def Fills (rand : ℕ → ℕ) (size range n : ℕ) (s : ℕ × ℕ × List Char) : Prop :=
  ∃ file, loop .diverges (realisticBody rand size range) n s = .ok file ∧ Written size file

theorem fills_of_continue {n : ℕ} {s s' : ℕ × ℕ × List Char}
    (h : realisticBody rand size range s = .ok (.inl s')) :
    Fills rand size range (n + 1) s ↔ Fills rand size range n s' := by
  unfold Fills
  rw [loop_of_continue h]

theorem not_fills_of_error {n : ℕ} {s : ℕ × ℕ × List Char} {e : Fault}
    (h : realisticBody rand size range s = .error e) : ¬ Fills rand size range (n + 1) s := by
  rintro ⟨file, hloop, -⟩
  rw [loop, h, error_bind] at hloop
  cases hloop

/-- Behind `size` the loop leaves a file with too many lines. -/
theorem not_fills_of_lt {n calls i : ℕ} {file : List Char} (hfile : Written i file)
    (hi : size < i) : ¬ Fills rand size range (n + 1) (calls, i, file) := by
  rintro ⟨file', hloop, hsize⟩
  rw [loop_of_leave (realisticBody_done hi.le)] at hloop
  cases hloop
  have hcount := hfile.count.symm.trans hsize.count
  omega

/-- A single with lines to go. -/
theorem fills_single {calls i n left : ℕ} {file : List Char} (hfile : Written i file)
    (hi : i + left = size) (hleft : 0 < left) (hcoin : rand calls % 2 = 0)
    (hrest : ∀ file', Written (i + 1) file' → (Fills rand size range n (calls + 2, i + 1, file') ↔
      AllFit rand range (calls + 2, left - 1))) :
    Fills rand size range (n + 1) (calls, i, file) ↔
      DrawFits rand range (calls, left) ∧ AllFit rand range (calls + 2, left - 1) := by
  have hbody : realisticBody rand size range (calls, i, file) = _ :=
    realisticBody_single (by omega) hcoin
  rw [DrawFits, if_pos hcoin]
  by_cases hvalue : rand (calls + 1) % range < 256
  · rw [if_pos hvalue] at hbody
    rw [fills_of_continue hbody, hrest _ (hfile.line (isAddress_bitString _))]
    exact (and_iff_right hvalue).symm
  · rw [if_neg hvalue] at hbody
    exact iff_of_false (not_fills_of_error hbody) fun h => hvalue h.1

/-- A jump with lines to go. -/
theorem fills_jump (hsize : size ≤ 2 ^ 31 - 1) {calls i n left : ℕ} {file : List Char}
    (hfile : Written i file) (hi : i + left = size) (hleft : 0 < left) (hn : left ≤ n)
    (hcoin : rand calls % 2 ≠ 0)
    (hrest : ∀ i' file', Written i' file' → i' + (left - 30) = size →
      (Fills rand size range n (calls + 4, i', file') ↔
        AllFit rand range (calls + 4, left - 30))) :
    Fills rand size range (n + 1) (calls, i, file) ↔
      DrawFits rand range (calls, left) ∧ AllFit rand range (calls + 4, left - 30) := by
  have hbody : realisticBody rand size range (calls, i, file) = _ :=
    realisticBody_jump (by omega) hcoin
  have hwritten : ∀ {i' file'}, jumpLoop (bitString 8 (rand (calls + 1) % range))
      (bitString 8 (rand (calls + 2) % range)) (bitString 8 (rand (calls + 3) % range))
      size 10 (i, file) = .ok (i', file') → Written i' file' := fun h =>
    jumpLoop_written (isAddress_bitString _) (isAddress_bitString _) (isAddress_bitString _) 10
      hfile h
  rw [DrawFits, if_neg hcoin]
  by_cases hvalues : rand (calls + 1) % range < 256 ∧ rand (calls + 2) % range < 256 ∧
      rand (calls + 3) % range < 256
  · rw [if_pos hvalues] at hbody
    by_cases hcut : 30 ≤ left ∨ 3 ∣ left
    · have hlines : 3 * 10 ≤ size - i ∨ 3 ∣ size - i := by
        rw [show size - i = left by omega]
        exact hcut
      obtain ⟨file', hjump⟩ : ∃ file', jumpLoop (bitString 8 (rand (calls + 1) % range))
          (bitString 8 (rand (calls + 2) % range)) (bitString 8 (rand (calls + 3) % range))
          size 10 (i, file) = .ok (i + min (3 * 10) (size - i), file') :=
        jumpLoop_of_fits hsize 10 (by omega) hlines
      rw [hjump] at hbody
      rw [fills_of_continue hbody, hrest _ _ (hwritten hjump) (by omega)]
      exact (and_iff_right ⟨hvalues.1, hvalues.2.1, hvalues.2.2, hcut⟩).symm
    · refine iff_of_false ?_ fun h => hcut h.1.2.2.2
      rcases hjump : jumpLoop (bitString 8 (rand (calls + 1) % range))
          (bitString 8 (rand (calls + 2) % range)) (bitString 8 (rand (calls + 3) % range))
          size 10 (i, file) with e | ⟨i', file'⟩
      · rw [hjump] at hbody
        exact not_fills_of_error hbody
      · -- the loop ends behind `size`
        rw [hjump] at hbody
        obtain ⟨n, rfl⟩ : ∃ k, n = k + 1 := ⟨n - 1, by omega⟩
        rw [fills_of_continue hbody]
        exact not_fills_of_lt (hwritten hjump) (lt_of_jumpLoop 10 (by omega) (by omega) hjump)
  · rw [if_neg hvalues] at hbody
    exact iff_of_false (not_fills_of_error hbody) fun h =>
      hvalues ⟨h.1.1, h.1.2.1, h.1.2.2.1⟩

/-- **The loop with `left` lines to go** writes as many if and only if all draws fit. -/
theorem realistic_loop (hsize : size ≤ 2 ^ 31 - 1) (left : ℕ) :
    ∀ {calls i n : ℕ} {file : List Char}, Written i file → i + left = size → left < n →
      (Fills rand size range n (calls, i, file) ↔ AllFit rand range (calls, left)) := by
  induction left using Nat.strong_induction_on with
  | _ left ih =>
    intro calls i n file hfile hi hn
    obtain ⟨n, rfl⟩ := Nat.exists_eq_succ_of_ne_zero (Nat.ne_of_gt (Nat.zero_lt_of_lt hn))
    rcases Nat.eq_zero_or_pos left with rfl | hleft
    · obtain rfl : i = size := hi
      exact iff_of_true ⟨file, loop_of_leave (realisticBody_done le_rfl), hfile⟩
        (allFit_of_none_left calls)
    rw [allFit_step hleft]
    by_cases hcoin : rand calls % 2 = 0
    · have hnext : nextDraw rand (calls, left) = (calls + 2, left - 1) := if_pos hcoin
      rw [hnext]
      exact fills_single hfile hi hleft hcoin fun file' hfile' =>
        ih (left - 1) (by omega) hfile' (by omega) (by omega)
    · have hnext : nextDraw rand (calls, left) = (calls + 4, left - 30) := if_neg hcoin
      rw [hnext]
      exact fills_jump hsize hfile hi hleft (by omega) hcoin fun i' file' hfile' hi' =>
        ih (left - 30) (by omega) hfile' hi' (by omega)

/-! ## The contract with the simulator -/

/-- **What the two programs agree on**: the file has `size` lines, and the simulator reads it if
its table has as many rows. -/
def ExactLines (rand : ℕ → ℕ) (size range : ℕ) : Prop :=
  ∃ file, realisticTrace rand size range = .ok file ∧ file.count '\n' = size ∧
    (size = addresses → ∀ mem, ∃ table, loadTrace file mem = .ok table)

theorem exactLines_iff_allFit (hsize : size ≤ 2 ^ 31 - 1) :
    ExactLines rand size range ↔ AllFit rand range (0, size) := by
  have hloop : Fills rand size range (size + 1) (0, 0, []) ↔ AllFit rand range (0, size) :=
    realistic_loop hsize size written_nil (Nat.zero_add size) (Nat.lt_succ_self size)
  rw [← hloop]
  constructor
  · rintro ⟨file, hfile, hcount, -⟩
    obtain ⟨i, hi⟩ := written_of_realisticTrace hfile
    exact ⟨file, hfile, hi.count.symm.trans hcount ▸ hi⟩
  · rintro ⟨file, hfile, hwritten⟩
    refine ⟨file, hfile, hwritten.count, fun haddresses mem => ?_⟩
    obtain ⟨lines, hlines, hlength, rfl⟩ := hwritten
    exact ⟨_, (loadTrace_text hlines mem).trans (if_pos (hlength.trans haddresses).le)⟩

/-- **The file has exactly `size` lines** if and only if every draw that is made fits. -/
theorem exact_lines_iff (rand : ℕ → ℕ) (size range : ℕ) (_hrange : 0 < range)
    (hsize : size ≤ 2 ^ 31 - 1) :
    ExactLines rand size range ↔
      ∀ k, 0 < ((nextDraw rand)^[k] (0, size)).2 →
        DrawFits rand range ((nextDraw rand)^[k] (0, size)) :=
  exactLines_iff_allFit hsize

/-- A jump with three lines to go. -/
theorem exact_lines_three : ExactLines (fun _ => 1) 3 256 :=
  (exact_lines_iff (fun _ => 1) 3 256 (by decide) (by decide)).mpr
    ((allFit_step (by decide)).mpr
      ⟨⟨by decide, by decide, by decide, Or.inr (dvd_refl 3)⟩, allFit_of_none_left 4⟩)

/-- **Too many lines**: a jump with one line to go writes three, and jumps only do not fit into
the table of the simulator. -/
theorem not_exact_lines :
    (∃ file, realisticTrace (fun _ => 1) 1 256 = .ok file ∧ file.count '\n' = 3) ∧
      ¬ ExactLines (fun _ => 1) addresses 256 := by
  refine ⟨⟨_, rfl, by decide⟩, fun h => ?_⟩
  have hfits := (exactLines_iff_allFit (by decide)).mp h
  have hleft : (nextDraw fun _ => 1)^[34] (0, addresses) = (136, 4) := by decide
  have hlast := hfits 34
  rw [hleft] at hlast
  exact absurd (hlast (by decide)).2.2.2 (by decide)

end CacheSimulator
end SystemsProjects

import SystemsProjects.CacheSimulator.TraceFile

/-!
# The main loop of the simulator on a short trace

The comment over the loop says that the program runs until it is out of addresses, but the loop
compares the program counter with `ADDRESSES`, whatever has been loaded.  The rows that
`loadTrace` has not filled are empty strings, for which the extraction of the index starts in
front of the row; it finds some set all the same, and the access is counted as a hit or a miss
(`CheckedSets.step`).  So `main` always counts `ADDRESSES` of them (`main_eq`).

The terminator that `scanf` writes behind the one character of `run` is left out.
-/

namespace SystemsProjects
namespace CacheSimulator

open Lib

/-! ## The code -/

/-- The loop of `main` goes on while the user has not said something else. -/
def GoesOn (run : Char) : Prop := run = 'y' ∨ run = 'a'

instance (run : Char) : Decidable (GoesOn run) := inferInstanceAs (Decidable (_ ∨ _))

/-- The body of the loop, on the number of answers that have been read, `run` and the globals. -/
def mainBody (answers : ℕ → Char) : ℕ × Char × Simulator →
    Except Fault (ℕ × Char × Simulator ⊕ Simulator)
  | (asked, run, s) =>
    if GoesOn run ∧ s.PC < addresses then
      let s := stepSimulator (checkCache s)
      if run ≠ 'a' then pure (.inl (asked + 1, answers asked, s))
      else pure (.inl (asked, run, s))
    else pure (.inr s)

/-- The flags of the sets are cleared. -/
def clearSets (s : Simulator) : Simulator :=
  { s with cacheOccupied := fun i => if 0 ≤ i ∧ i < sets then 0 else s.cacheOccupied i }

/-- Static memory is zero before `main`. -/
def zeroed : Simulator := ⟨fun _ => nul, 0, fun _ => [], fun _ => 0, 0, 0, 0⟩

/-- `main`, on the contents of the trace file. -/
def main (file : List Char) (answers : ℕ → Char) : Except Fault Simulator := do
  let table ← loadTrace file zeroed.instructionCache
  loop .diverges (mainBody answers) (addresses + 1)
    (0, 'y', clearSets { zeroed with instructionCache := table })

/-! ## Every step counts -/

/-- The flags are 0 or 1, and `t` accesses have been counted from the start. -/
structure CheckedSets (s : Simulator) (t : ℕ) : Prop where
  flags : ∀ i, s.cacheOccupied i = 0 ∨ s.cacheOccupied i = 1
  pc : s.PC = t
  total : s.cacheHit + s.cacheMisses = t

/-- **One step** counts one access, whatever stands in the row. -/
theorem CheckedSets.step {s : Simulator} {t : ℕ} (h : CheckedSets s t) :
    CheckedSets (stepSimulator (checkCache s)) (t + 1) := by
  have hpc : (stepSimulator (checkCache s)).PC = ((t + 1 : ℕ) : ℤ) := by
    rw [stepSimulator_checkCache_PC, h.pc]
    rfl
  have htotal := h.total
  rcases h.flags (cacheIndex s) with hempty | hfull
  · rw [checkCache_of_empty hempty] at hpc ⊢
    refine ⟨fun i => ?_, hpc, ?_⟩
    · show Function.update s.cacheOccupied (cacheIndex s) 1 i = 0 ∨
        Function.update s.cacheOccupied (cacheIndex s) 1 i = 1
      by_cases hi : i = cacheIndex s
      · rw [hi, Function.update_self]
        exact Or.inr rfl
      · rw [Function.update_of_ne hi]
        exact h.flags i
    · show s.cacheHit + (s.cacheMisses + 1) = _
      push_cast
      omega
  · rw [checkCache_of_occupied hfull] at hpc ⊢
    by_cases hline : s.cacheLines (cacheIndex s) = cString (instruction s)
    · rw [evictionPolicy_of_eq hline] at hpc ⊢
      refine ⟨h.flags, hpc, ?_⟩
      show s.cacheHit + 1 + s.cacheMisses = _
      push_cast
      omega
    · rw [evictionPolicy_of_ne hline] at hpc ⊢
      refine ⟨h.flags, hpc, ?_⟩
      show s.cacheHit + (s.cacheMisses + 1) = _
      push_cast
      omega

variable {s : Simulator}

theorem CheckedSets.simulate (h : CheckedSets s 0) (t : ℕ) :
    CheckedSets (CacheSimulator.simulate t s) t := by
  induction t with
  | zero => exact h
  | succ t ih => exact ih.step

/-! ## The run of the program -/

variable {answers : ℕ → Char}

/-- **The loop of `main`** makes every step up to `ADDRESSES`. -/
theorem main_loop (h : CheckedSets s 0) (hanswers : ∀ k, GoesOn (answers k)) (left : ℕ) :
    ∀ {t asked fuel : ℕ} {run : Char}, GoesOn run → t + left = addresses → left < fuel →
      loop .diverges (mainBody answers) fuel (asked, run, simulate t s) =
        .ok (simulate addresses s) := by
  induction left with
  | zero =>
    intro t asked fuel run _ ht hfuel
    obtain ⟨fuel, rfl⟩ := Nat.exists_eq_succ_of_ne_zero (Nat.ne_of_gt hfuel)
    obtain rfl : t = addresses := ht
    have hbody : mainBody answers (asked, run, simulate addresses s) =
        .ok (.inr (simulate addresses s)) := by
      rw [mainBody, (h.simulate addresses).pc, if_neg fun hc => lt_irrefl _ hc.2]
      rfl
    exact loop_of_leave hbody
  | succ left ih =>
    intro t asked fuel run hrun ht hfuel
    obtain ⟨fuel, rfl⟩ := Nat.exists_eq_succ_of_ne_zero (Nat.ne_of_gt (Nat.zero_lt_of_lt hfuel))
    have hpc : (simulate t s).PC < addresses := by
      rw [(h.simulate t).pc]
      omega
    have hbody : ∃ asked' run', GoesOn run' ∧ mainBody answers (asked, run, simulate t s) =
        .ok (.inl (asked', run', simulate (t + 1) s)) := by
      rw [mainBody, if_pos ⟨hrun, hpc⟩]
      split
      · exact ⟨asked + 1, answers asked, hanswers asked, rfl⟩
      · exact ⟨asked, run, hrun, rfl⟩
    obtain ⟨asked', run', hrun', hbody⟩ := hbody
    rw [loop_of_continue hbody]
    exact ih hrun' (by omega) (Nat.lt_of_succ_lt_succ hfuel)

/-- The state in which `main` enters its loop. -/
def started (table : ℤ → Char) : Simulator := clearSets { zeroed with instructionCache := table }

theorem checkedSets_started (table : ℤ → Char) : CheckedSets (started table) 0 where
  flags := fun i => Or.inl (by
    show (if 0 ≤ i ∧ i < sets then (0 : ℤ) else 0) = 0
    rw [ite_self])
  pc := rfl
  total := rfl

/-- **`main` executes the whole table.** -/
theorem main_eq {file : List Char} {table : ℤ → Char}
    (hload : loadTrace file zeroed.instructionCache = .ok table)
    (hanswers : ∀ k, GoesOn (answers k)) :
    main file answers = .ok (simulate addresses (started table)) := by
  unfold main
  rw [hload, ok_bind]
  exact main_loop (checkedSets_started table) hanswers addresses (t := 0) (Or.inl rfl)
    (Nat.zero_add _) (Nat.lt_succ_self _)

/-- **Every line of the file is one access**: the program ends, its hits and misses add up to
the number of lines, and its latency is that of the first so many steps. -/
def CountsLines (lines : List (List Char)) (answers : ℕ → Char) : Prop :=
  ∃ table s, loadTrace (text lines) zeroed.instructionCache = .ok table ∧
    main (text lines) answers = .ok s ∧ s.cacheHit + s.cacheMisses = lines.length ∧
    s.totalLatency = (simulate lines.length (started table)).totalLatency

theorem countsLines_iff_length {lines : List (List Char)} (hlines : ∀ l ∈ lines, IsAddress l)
    (hlength : lines.length ≤ addresses) (hanswers : ∀ k, GoesOn (answers k)) :
    CountsLines lines answers ↔ lines.length = addresses := by
  have hload := (loadTrace_text hlines zeroed.instructionCache).trans (if_pos hlength)
  have hmain := main_eq hload hanswers
  have htotal := ((checkedSets_started (fillRows zeroed.instructionCache 0 lines)).simulate
    addresses).total
  constructor
  · rintro ⟨table, s, -, hs, hcount, -⟩
    obtain rfl := Except.ok.inj (hmain.symm.trans hs)
    exact_mod_cast hcount.symm.trans htotal
  · intro heq
    exact ⟨_, _, hload, hmain, by rw [htotal, heq], by rw [heq]⟩

/-- **Short traces**: the accesses are those of the lines of the file if and only if the file
fills the table. -/
theorem counts_lines_iff (lines : List (List Char)) (hlines : ∀ l ∈ lines, IsAddress l)
    (_hpos : 1 ≤ lines.length) (hlength : lines.length ≤ addresses) (answers : ℕ → Char)
    (hanswers : ∀ k, GoesOn (answers k)) :
    CountsLines lines answers ↔ lines.length = addresses :=
  countsLines_iff_length hlines hlength hanswers

theorem isAddress_zeros : IsAddress "00000000".toList := ⟨by decide, by simp⟩

/-- A full table. -/
theorem counts_lines_full :
    CountsLines (List.replicate addresses "00000000".toList) fun _ => 'a' :=
  (counts_lines_iff _ (fun l hl => List.eq_of_mem_replicate hl ▸ isAddress_zeros)
    (by rw [List.length_replicate]; decide) (by rw [List.length_replicate]) _
    fun _ => Or.inr rfl).mpr List.length_replicate

/-- **One line, 1024 accesses.** -/
theorem not_counts_lines : ¬ CountsLines ["00000000".toList] fun _ => 'a' := fun h =>
  absurd ((countsLines_iff_length (List.forall_mem_singleton.mpr isAddress_zeros) (by decide)
    fun _ => Or.inr rfl).mp h) (by decide)

end CacheSimulator
end SystemsProjects

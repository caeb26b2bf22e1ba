import SystemsProjects.CacheSimulator.Simulator
import SystemsProjects.Lib.Latest

/-!
# The simulator is a direct-mapped cache

The specification speaks of the whole trace: step `t` is a hit when the latest
earlier step with the same index bits had the same address (`HitAt`).  The code
keeps four strings and four flags.  `Tracks` is the invariant between the two:
the occupied lines are the latest addresses of their index among the steps so
far.  `Tracks.step` keeps it and decides the step, and `direct_mapped` is the
result for every trace.
-/

namespace SystemsProjects
namespace CacheSimulator

open Lib

/-- A bit string of eight characters. -/
structure IsAddress (a : List Char) : Prop where
  length_eq : a.length = 8
  binary : ∀ c ∈ a, c = '0' ∨ c = '1'

/-- Bits 2 and 1 of an address.  Bit `k` is the character `7 - k`. -/
def indexBits (a : List Char) : Option Char × Option Char := (a[5]?, a[6]?)

/-- The number that the index bits denote. -/
def indexOf (a : List Char) : ℤ :=
  (if a[6]? = some '1' then 1 else 0) + (if a[5]? = some '1' then 2 else 0)

/-- **A hit**, by the history: some earlier step had the index bits of step `t`,
and the latest such step had its address. -/
def HitAt (tr : List (List Char)) (t : ℕ) : Prop :=
  ∃ a b, ∃ j < t, tr[t]? = some a ∧ tr[j]? = some b ∧
    indexBits b = indexBits a ∧
    (∀ (i : ℕ) (c : List Char), j < i → i < t → tr[i]? = some c →
      indexBits c ≠ indexBits a) ∧
    b = a

/-- The rows of the table are the addresses of the trace. -/
def Loaded (mem : ℤ → Char) (tr : List (List Char)) : Prop :=
  ∀ (k : ℕ) (a : List Char), tr[k]? = some a →
    Shows (fun j => mem ((k : ℤ) * (bitwidth + 1) + j)) a

/-! ## Addresses and their index -/

theorem IsAddress.char_eq {a : List Char} (h : IsAddress a) {i : ℕ} (hi : i < 8) :
    a[i]? = some '0' ∨ a[i]? = some '1' := by
  have hlen : i < a.length := by rw [h.length_eq]; exact hi
  rw [List.getElem?_eq_getElem hlen]
  rcases h.binary _ (List.getElem_mem hlen) with hc | hc
  · exact Or.inl (congrArg some hc)
  · exact Or.inr (congrArg some hc)

/-- The index number and the index bits tell the same addresses apart. -/
theorem indexOf_eq_iff {a b : List Char} (ha : IsAddress a) (hb : IsAddress b) :
    indexOf a = indexOf b ↔ indexBits a = indexBits b := by
  rw [indexOf, indexOf, indexBits, indexBits]
  rcases ha.char_eq (i := 5) (by decide) with h₅ | h₅ <;>
    rcases ha.char_eq (i := 6) (by decide) with h₆ | h₆ <;>
    rcases hb.char_eq (i := 5) (by decide) with h₅' | h₅' <;>
    rcases hb.char_eq (i := 6) (by decide) with h₆' | h₆' <;>
    simp [h₅, h₆, h₅', h₆']

/-- The code extracts the index of the address that stands at a pointer. -/
theorem binaryStringRangeToInt_of_shows {bin : CharPtr} {a : List Char}
    (h : Shows bin a) (ha : IsAddress a) :
    binaryStringRangeToInt bin indexStart indexStop = indexOf a := by
  have hlen := strlen_of_shows h (by rw [ha.length_eq]; decide)
  have hfirst : toInt32 (toUInt64 ((strlen bin : ℤ) - indexStart - 1)) = 6 := by
    rw [hlen, ha.length_eq]
    decide
  have hchar : ∀ i < 8, (bin (i : ℕ) = '1' ↔ a[i]? = some '1') := by
    intro i hi
    have hi' : i < a.length := by rw [ha.length_eq]; exact hi
    rw [List.getElem?_eq_getElem hi', (h.1 i a[i] (List.getElem?_eq_getElem hi')).1,
      Option.some.injEq]
  rw [binaryStringRangeToInt, hfirst]
  show rangeLoop bin 2 6 0 0 = _
  have h₆ : bin 6 = '1' ↔ a[6]? = some '1' := hchar 6 (by decide)
  have h₅ : bin 5 = '1' ↔ a[5]? = some '1' := hchar 5 (by decide)
  simp only [rangeLoop, indexOf, ← h₅, ← h₆, show (6 : ℤ) - 1 = 5 from rfl]
  by_cases hsix : bin 6 = '1' <;> by_cases hfive : bin 5 = '1' <;> simp [hsix, hfive]

/-! ## The invariant -/

/-- After the steps `hist`, the occupied lines are the latest addresses of their
index, and the counters add up. -/
structure Tracks (s : Simulator) (hist : List (List Char)) : Prop where
  pc : s.PC = hist.length
  empty : ∀ i, 0 ≤ i → i < sets → latest indexOf hist i = none → s.cacheOccupied i = 0
  line : ∀ i a, latest indexOf hist i = some a →
    s.cacheOccupied i = 1 ∧ s.cacheLines i = a
  hit_nonneg : 0 ≤ s.cacheHit
  misses_nonneg : 0 ≤ s.cacheMisses
  total : s.cacheHit + s.cacheMisses = hist.length
  latency : s.totalLatency = s.cacheHit + 100 * s.cacheMisses

theorem tracks_nil {s : Simulator} (h : Initial s) : Tracks s [] where
  pc := h.pc
  empty := fun i h₀ h₁ _ => h.occupied i h₀ h₁
  line := fun i a hl => by simp at hl
  hit_nonneg := by rw [h.hit]
  misses_nonneg := by rw [h.misses]
  total := by rw [h.hit, h.misses]; rfl
  latency := by rw [h.hit, h.misses, h.latency]; rfl

variable {s : Simulator} {hist : List (List Char)} {a : List Char}

/-- The line of `a` is written, whatever it held, and a hit or a miss is counted. -/
theorem Tracks.concat (h : Tracks s hist) {s' : Simulator} (hpc : s'.PC = s.PC + 1)
    (hoccupied : s'.cacheOccupied = Function.update s.cacheOccupied (indexOf a) 1)
    (hlines : s'.cacheLines = Function.update s.cacheLines (indexOf a) a)
    (hcount : (s'.cacheHit = s.cacheHit + 1 ∧ s'.cacheMisses = s.cacheMisses ∧
        s'.totalLatency = s.totalLatency + 1) ∨
      (s'.cacheHit = s.cacheHit ∧ s'.cacheMisses = s.cacheMisses + 1 ∧
        s'.totalLatency = s.totalLatency + 100)) :
    Tracks s' (hist ++ [a]) := by
  have hhits := h.hit_nonneg
  have hmisses := h.misses_nonneg
  have htotal := h.total
  have hlatency := h.latency
  have hlength : (hist ++ [a]).length = hist.length + 1 := by
    rw [List.length_append, List.length_singleton]
  refine ⟨by rw [hpc, h.pc, hlength]; rfl, fun i h₀ h₁ hi => ?_, fun i b hb => ?_, by omega,
    by omega, by rw [hlength]; omega, by omega⟩
  · rcases eq_or_ne (indexOf a) i with rfl | hne
    · rw [latest_concat, if_pos rfl] at hi
      cases hi
    · rw [latest_concat, if_neg hne] at hi
      rw [hoccupied, Function.update_of_ne hne.symm]
      exact h.empty i h₀ h₁ hi
  · rcases eq_or_ne (indexOf a) i with rfl | hne
    · rw [latest_concat, if_pos rfl] at hb
      rw [hoccupied, hlines, Function.update_self, Function.update_self]
      exact ⟨rfl, Option.some.inj hb⟩
    · rw [latest_concat, if_neg hne] at hb
      rw [hoccupied, hlines, Function.update_of_ne hne.symm, Function.update_of_ne hne.symm]
      exact h.line i b hb

/-- **One step of the simulator.**  It counts a hit exactly when the latest
address of the same index is the one executed, and a miss otherwise. -/
theorem Tracks.step (h : Tracks s hist) (hshow : Shows (instruction s) a)
    (ha : IsAddress a) :
    Tracks (stepSimulator (checkCache s)) (hist ++ [a]) ∧
      (latest indexOf hist (indexOf a) = some a →
        (stepSimulator (checkCache s)).cacheHit = s.cacheHit + 1 ∧
          (stepSimulator (checkCache s)).cacheMisses = s.cacheMisses) ∧
      (latest indexOf hist (indexOf a) ≠ some a →
        (stepSimulator (checkCache s)).cacheHit = s.cacheHit ∧
          (stepSimulator (checkCache s)).cacheMisses = s.cacheMisses + 1) := by
  have hindex : cacheIndex s = indexOf a := binaryStringRangeToInt_of_shows hshow ha
  have hstring : cString (instruction s) = a :=
    cString_of_shows hshow (by rw [ha.length_eq]; decide)
  have hpc := stepSimulator_checkCache_PC s
  have hindex₀ : 0 ≤ indexOf a ∧ indexOf a < sets := by
    rw [← hindex]
    exact binaryStringRangeToInt_index _
  rcases hlast : latest indexOf hist (indexOf a) with _ | b
  · -- cold miss
    have hempty : s.cacheOccupied (cacheIndex s) = 0 := by
      rw [hindex]
      exact h.empty _ hindex₀.1 hindex₀.2 hlast
    rw [checkCache_of_empty hempty] at hpc ⊢
    refine ⟨h.concat hpc ?_ ?_ (Or.inr ⟨rfl, rfl, rfl⟩),
      fun hc => absurd hc (Option.some_ne_none a).symm, fun _ => ⟨rfl, rfl⟩⟩
    · rw [← hindex]
      rfl
    · rw [← hindex, ← hstring]
      rfl
  · obtain ⟨hocc, hline⟩ := h.line _ b hlast
    have hoccupied : s.cacheOccupied = Function.update s.cacheOccupied (indexOf a) 1 := by
      rw [← hocc, Function.update_eq_self]
    have hlines : s.cacheLines = Function.update s.cacheLines (indexOf a) b := by
      rw [← hline, Function.update_eq_self]
    rw [checkCache_of_occupied (s := s) (by rw [hindex]; exact hocc)] at hpc ⊢
    by_cases hba : b = a
    · -- hit
      subst hba
      rw [evictionPolicy_of_eq (by rw [hindex, hline, hstring])] at hpc ⊢
      exact ⟨h.concat hpc hoccupied hlines (Or.inl ⟨rfl, rfl, rfl⟩), fun _ => ⟨rfl, rfl⟩,
        fun hc => absurd rfl hc⟩
    · -- conflict miss
      rw [evictionPolicy_of_ne (by rw [hindex, hline, hstring]; exact hba)] at hpc ⊢
      refine ⟨h.concat hpc hoccupied ?_ (Or.inr ⟨rfl, rfl, rfl⟩),
        fun hc => absurd (Option.some.inj hc) hba, fun _ => ⟨rfl, rfl⟩⟩
      rw [← hindex, ← hstring]
      rfl

/-! ## Runs over a trace -/

variable {tr : List (List Char)} {s₀ : Simulator}

theorem simulate_instructionCache (n : ℕ) (s₀ : Simulator) :
    (simulate n s₀).instructionCache = s₀.instructionCache := by
  induction n with
  | zero => rfl
  | succ n ih => rw [simulate, stepSimulator_checkCache_instructionCache, ih]

/-- The address executed after `t` steps. -/
theorem shows_instruction (hload : Loaded s₀.instructionCache tr) {t : ℕ}
    (hpc : (simulate t s₀).PC = t) {a : List Char} (ha : tr[t]? = some a) :
    Shows (instruction (simulate t s₀)) a := by
  have h := hload t a ha
  rw [← simulate_instructionCache t s₀, ← hpc] at h
  exact h

/-- **The invariant along the trace.** -/
theorem tracks_simulate (hinit : Initial s₀) (hload : Loaded s₀.instructionCache tr)
    (haddr : ∀ a ∈ tr, IsAddress a) :
    ∀ {t : ℕ}, t ≤ tr.length → Tracks (simulate t s₀) (tr.take t) := by
  intro t
  induction t with
  | zero => exact fun _ => tracks_nil hinit
  | succ t ih =>
    intro ht
    have htr := ih (by omega)
    have hget : tr[t]? = some tr[t] := List.getElem?_eq_getElem ht
    have hpc : (simulate t s₀).PC = t := by
      rw [htr.pc, List.length_take]
      omega
    rw [List.take_add_one, hget]
    exact (htr.step (shows_instruction hload hpc hget)
      (haddr _ (List.getElem_mem ht))).1

/-- A hit by the history is a hit by the latest address of the index. -/
theorem hitAt_iff (haddr : ∀ a ∈ tr, IsAddress a) {t : ℕ} {a : List Char}
    (ha : tr[t]? = some a) :
    HitAt tr t ↔ latest indexOf (tr.take t) (indexOf a) = some a := by
  have hbits : ∀ {i : ℕ} {c : List Char}, tr[i]? = some c →
      (indexOf c = indexOf a ↔ indexBits c = indexBits a) := fun hc =>
    indexOf_eq_iff (haddr _ (List.mem_of_getElem? hc)) (haddr _ (List.mem_of_getElem? ha))
  have htake : ∀ {i : ℕ} {c : List Char},
      (tr.take t)[i]? = some c ↔ i < t ∧ tr[i]? = some c := by
    intro i c
    rw [List.getElem?_take]
    split
    · rename_i hi
      exact (and_iff_right hi).symm
    · rename_i hi
      exact iff_of_false (by simp) fun h => hi h.1
  rw [latest_eq_some_iff]
  constructor
  · rintro ⟨a', b, j, hj, ha', hb, -, hlast, rfl⟩
    obtain rfl : a = b := Option.some.inj (ha.symm.trans ha')
    refine ⟨j, htake.mpr ⟨hj, hb⟩, rfl, fun i c hi hc => ?_⟩
    obtain ⟨hit, hc⟩ := htake.mp hc
    exact mt (hbits hc).mp (hlast i c hi hit hc)
  · rintro ⟨j, hj, -, hlast⟩
    obtain ⟨hjt, hj⟩ := htake.mp hj
    refine ⟨a, a, j, hjt, ha, hj, rfl, fun i c hi hit hc => ?_, rfl⟩
    exact mt (hbits hc).mpr (hlast i c hi (htake.mpr ⟨hit, hc⟩))

/-- **The counters over one step of a run**, by the history. -/
theorem simulate_counts (hinit : Initial s₀) (hload : Loaded s₀.instructionCache tr)
    (haddr : ∀ a ∈ tr, IsAddress a) {t : ℕ} (ht : t < tr.length) :
    (HitAt tr t →
      (simulate (t + 1) s₀).cacheHit = (simulate t s₀).cacheHit + 1 ∧
      (simulate (t + 1) s₀).cacheMisses = (simulate t s₀).cacheMisses) ∧
    (¬ HitAt tr t →
      (simulate (t + 1) s₀).cacheHit = (simulate t s₀).cacheHit ∧
      (simulate (t + 1) s₀).cacheMisses = (simulate t s₀).cacheMisses + 1) := by
  have htr := tracks_simulate hinit hload haddr ht.le
  have hget : tr[t]? = some tr[t] := List.getElem?_eq_getElem ht
  have hpc : (simulate t s₀).PC = t := by
    rw [htr.pc, List.length_take]
    omega
  have hstep := htr.step (shows_instruction hload hpc hget) (haddr _ (List.getElem_mem ht))
  rw [hitAt_iff haddr hget]
  exact hstep.2

/-- **The simulator equals its specification.**  For every trace of addresses in
the table, after every number `t` of steps: the counters add up to `t`, the
latency is `hits + 100 * misses`, every occupied line holds the latest address of
its index, and the next step counts a hit exactly when the history says so, and
otherwise a miss. -/
theorem direct_mapped (tr : List (List Char)) (haddr : ∀ a ∈ tr, IsAddress a)
    (s₀ : Simulator) (hinit : Initial s₀) (hload : Loaded s₀.instructionCache tr)
    (t : ℕ) (ht : t ≤ tr.length) :
    (simulate t s₀).cacheHit + (simulate t s₀).cacheMisses = t ∧
    (simulate t s₀).totalLatency =
      (simulate t s₀).cacheHit + 100 * (simulate t s₀).cacheMisses ∧
    (∀ i, 0 ≤ i → i < sets → (simulate t s₀).cacheOccupied i = 1 →
      latest indexOf (tr.take t) i = some ((simulate t s₀).cacheLines i)) ∧
    (t < tr.length →
      (HitAt tr t →
        (simulate (t + 1) s₀).cacheHit = (simulate t s₀).cacheHit + 1 ∧
        (simulate (t + 1) s₀).cacheMisses = (simulate t s₀).cacheMisses) ∧
      (¬ HitAt tr t →
        (simulate (t + 1) s₀).cacheHit = (simulate t s₀).cacheHit ∧
        (simulate (t + 1) s₀).cacheMisses = (simulate t s₀).cacheMisses + 1)) := by
  have htr := tracks_simulate hinit hload haddr ht
  have hlen : (tr.take t).length = t := by rw [List.length_take]; omega
  refine ⟨by rw [htr.total, hlen], htr.latency, fun i h₀ h₁ hocc => ?_,
    fun hlt => simulate_counts hinit hload haddr hlt⟩
  rcases hl : latest indexOf (tr.take t) i with _ | a
  · rw [htr.empty i h₀ h₁ hl] at hocc
    cases hocc
  · rw [(htr.line i a hl).2]

/-- **No counter overflows**: over the rows of the table the latency, and with it
both counters, stays far inside an `int`. -/
theorem counters_lt_of_le_addresses (hinit : Initial s₀)
    (hload : Loaded s₀.instructionCache tr) (haddr : ∀ a ∈ tr, IsAddress a) {t : ℕ}
    (ht : t ≤ tr.length) (hrows : t ≤ addresses) :
    (simulate t s₀).cacheHit ≤ 1024 ∧ (simulate t s₀).cacheMisses ≤ 1024 ∧
      (simulate t s₀).totalLatency ≤ 102400 := by
  have htr := tracks_simulate hinit hload haddr ht
  have hhits := htr.hit_nonneg
  have hmisses := htr.misses_nonneg
  have htotal := htr.total
  have hlatency := htr.latency
  rw [addresses] at hrows
  rw [List.length_take] at htotal
  omega

/-- The table of a trace, zero behind and around its rows. -/
def table (tr : List (List Char)) : ℤ → Char := fun z =>
  if z < 0 then nul else (tr.getD (z / 9).toNat []).getD (z % 9).toNat nul

theorem table_row {tr : List (List Char)} {k j : ℕ} (hj : j < 9) :
    table tr ((k : ℤ) * (bitwidth + 1) + j) = (tr.getD k []).getD j nul := by
  have hdiv : ((k : ℤ) * (bitwidth + 1) + j) / 9 = k := by rw [bitwidth]; omega
  have hmod : ((k : ℤ) * (bitwidth + 1) + j) % 9 = j := by rw [bitwidth]; omega
  rw [table, if_neg (by rw [bitwidth]; omega), hdiv, hmod, Int.toNat_natCast,
    Int.toNat_natCast]

/-- The table of a trace of addresses shows each of them in its row. -/
theorem loaded_table {tr : List (List Char)} (haddr : ∀ a ∈ tr, IsAddress a) :
    Loaded (table tr) tr := by
  intro k a ha
  have hlen := (haddr a (List.mem_of_getElem? ha)).length_eq
  have hrow : tr.getD k [] = a := by rw [List.getD_eq_getElem?_getD, ha]; rfl
  refine ⟨fun i c hc => ?_, ?_⟩
  · have hi : i < 8 := by
      rw [← hlen]
      exact (List.getElem?_eq_some_iff.mp hc).1
    show table tr ((k : ℤ) * (bitwidth + 1) + i) = c ∧ c ≠ nul
    rw [table_row (by omega), hrow, List.getD_eq_getElem?_getD, hc]
    refine ⟨rfl, ?_⟩
    rcases (haddr a (List.mem_of_getElem? ha)).binary c (List.mem_of_getElem? hc) with
      rfl | rfl <;> decide
  · show table tr ((k : ℤ) * (bitwidth + 1) + a.length) = nul
    rw [hlen, table_row (by omega), hrow, List.getD_eq_getElem?_getD,
      List.getElem?_eq_none (by omega)]
    rfl

/-- A conflict: two addresses of set 0, and the first of them again. -/
theorem direct_mapped_conflict :
    let tr := ["00000000".toList, "00001000".toList, "00000000".toList]
    let s₀ : Simulator := ⟨table tr, 0, fun _ => [], fun _ => 0, 0, 0, 0⟩
    (simulate 2 s₀).cacheHit + (simulate 2 s₀).cacheMisses = 2 ∧
      (¬ HitAt tr 2 → (simulate 3 s₀).cacheMisses = (simulate 2 s₀).cacheMisses + 1) := by
  intro tr s₀
  have haddr : ∀ a ∈ tr, IsAddress a := by
    intro a ha
    simp only [tr, List.mem_cons, List.not_mem_nil, or_false] at ha
    rcases ha with rfl | rfl | rfl <;> exact ⟨by decide, by simp⟩
  have h := direct_mapped tr haddr s₀ ⟨rfl, fun _ _ _ => rfl, rfl, rfl, rfl⟩
    (loaded_table haddr) 2 (by decide)
  exact ⟨h.1, fun hmiss => ((h.2.2.2 (by decide)).2 hmiss).2⟩

end CacheSimulator
end SystemsProjects

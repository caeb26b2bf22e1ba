import SystemsProjects.CacheSimulator.TraceFile

/-!
# A friendly trace and two hostile ones

`FourTrace` goes round four values that have a set each: the first round misses, and every
later step finds its own value (`hitAt_four_iff`).  `HostileTrace` and `Trace` with a range of
256 count up, so two values in a row share a set and each of them throws the other one out
before it comes round again (`not_hitAt_of_pairs`).

`Scores` counts over the whole trace, for a table of any number of rows; as far as the table
of the program goes it is the one that `loadTrace` fills.
-/

namespace SystemsProjects
namespace CacheSimulator

open Lib

/-- **The score of a generated file**: the simulator, started on its `n` addresses, counts so
many misses and hits. -/
def Scores (written : Except Fault (List Char)) (n misses hits : ℕ) : Prop :=
  ∃ lines : List (List Char), written = .ok (text lines) ∧ lines.length = n ∧
    (∀ a ∈ lines, IsAddress a) ∧
    (∀ s₀ : Simulator, Initial s₀ → Loaded s₀.instructionCache lines →
      (simulate n s₀).cacheMisses = misses ∧ (simulate n s₀).cacheHit = hits) ∧
    (n ≤ addresses → ∀ mem, ∃ table, loadTrace (text lines) mem = .ok table ∧
      Loaded table lines)

/-! ## The addresses of a generator -/

/-- The lines that a generator writes for the values `f`. -/
def linesOf (f : ℕ → ℕ) (n : ℕ) : List (List Char) :=
  (List.range n).map fun i => bitString 8 (f i)

variable {f : ℕ → ℕ} {n t : ℕ}

theorem length_linesOf : (linesOf f n).length = n := by
  rw [linesOf, List.length_map, List.length_range]

theorem getElem?_linesOf {a : List Char} :
    (linesOf f n)[t]? = some a ↔ t < n ∧ bitString 8 (f t) = a := by
  rw [linesOf, List.getElem?_map, Option.map_eq_some_iff]
  constructor
  · rintro ⟨i, hi, rfl⟩
    obtain ⟨hlt, rfl⟩ := List.getElem?_eq_some_iff.mp hi
    rw [List.length_range] at hlt
    exact ⟨hlt, by rw [List.getElem_range]⟩
  · rintro ⟨hlt, rfl⟩
    exact ⟨t, List.getElem?_range hlt, rfl⟩

theorem isAddress_linesOf : ∀ a ∈ linesOf f n, IsAddress a := by
  intro a ha
  obtain ⟨i, -, rfl⟩ := List.mem_map.mp ha
  exact isAddress_bitString _

/-- The file of a generator whose values are natural numbers below 256. -/
theorem generate_eq {value : ℕ → ℤ} (hvalue : ∀ i, value i = f i) (hf : ∀ i, f i < 256) :
    generate value n = .ok (text (linesOf f n)) := by
  rw [generate, writeTrace_eq]
  · rw [List.map_map, linesOf]
    congr 2
    refine List.map_congr_left fun i _ => ?_
    show bitString 8 (value i).toNat = _
    rw [hvalue, Int.toNat_natCast]
  · intro v hv
    obtain ⟨i, -, rfl⟩ := List.mem_map.mp hv
    have hlt := hf i
    rw [hvalue]
    omega

/-- **A hit on the values**: the latest step with the set of step `t` wrote its line. -/
theorem hitAt_linesOf (ht : t < n) :
    HitAt (linesOf f n) t ↔ ∃ j < t, bitString 8 (f j) = bitString 8 (f t) ∧
      ∀ i, j < i → i < t → f i / 2 % 4 ≠ f t / 2 % 4 := by
  have hset : ∀ i, f i / 2 % 4 = f t / 2 % 4 ↔
      indexBits (bitString 8 (f i)) = indexBits (bitString 8 (f t)) := by
    intro i
    rw [← indexOf_eq_iff (isAddress_bitString _) (isAddress_bitString _), indexOf_bitString,
      indexOf_bitString, Nat.cast_inj]
  constructor
  · rintro ⟨a, b, j, hj, ha, hb, -, hlast, rfl⟩
    obtain ⟨-, rfl⟩ := getElem?_linesOf.mp ha
    obtain ⟨-, hb⟩ := getElem?_linesOf.mp hb
    refine ⟨j, hj, hb, fun i hji hit hi => ?_⟩
    exact hlast i _ hji hit (getElem?_linesOf.mpr ⟨hit.trans ht, rfl⟩) ((hset i).mp hi)
  · rintro ⟨j, hj, hb, hlast⟩
    refine ⟨_, _, j, hj, getElem?_linesOf.mpr ⟨ht, rfl⟩,
      getElem?_linesOf.mpr ⟨hj.trans ht, hb⟩, rfl, fun i c hji hit hc => ?_, rfl⟩
    obtain ⟨-, rfl⟩ := getElem?_linesOf.mp hc
    exact mt (hset i).mpr (hlast i hji hit)

/-! ## Which steps hit -/

/-- The lowest digit of a line is that of its value. -/
theorem mod_two_of_bitString {v w : ℕ} (h : bitString 8 v = bitString 8 w) : v % 2 = w % 2 := by
  rw [bitString, bitString] at h
  obtain ⟨-, hlast⟩ := List.append_inj' h rfl
  have hchar : bitChar v = bitChar w := List.head_eq_of_cons_eq hlast
  have hv := bitChar_eq_one_iff v
  rw [hchar, bitChar_eq_one_iff] at hv
  omega

/-- **Four values with a set each** hit from the second round on. -/
theorem hitAt_four_iff (ht : t < n) : HitAt (linesOf (fun i => i % 4 * 2) n) t ↔ 4 ≤ t := by
  rw [hitAt_linesOf ht]
  constructor
  · rintro ⟨j, hj, hline, -⟩
    have hset := congrArg indexOf hline
    rw [indexOf_bitString, indexOf_bitString, Nat.cast_inj] at hset
    omega
  · intro h4
    have hsame : (t - 4) % 4 * 2 = t % 4 * 2 := by omega
    refine ⟨t - 4, by omega, by rw [hsame], fun i hi hit => ?_⟩
    omega

/-- **Two values in a row that share a set**: there is no hit, because a value comes back only
after the other one of its pair. -/
theorem not_hitAt_of_pairs {m : ℕ} (hm : m % 2 = 0) (ht : t < n) :
    ¬ HitAt (linesOf (fun i => i % m) n) t := by
  have hparity : ∀ i, i % m % 2 = i % 2 := fun i =>
    Nat.mod_mod_of_dvd i (Nat.dvd_of_mod_eq_zero hm)
  have hpair : ∀ i, i % 2 = 0 → (i + 1) % m / 2 = i % m / 2 := by
    intro i hi
    have heven := hparity i
    have hodd := hparity (i + 1)
    rcases Nat.eq_zero_or_pos m with rfl | hpos
    · omega
    · have hlt := Nat.mod_lt i hpos
      have hsucc : (i + 1) % m = i % m + 1 := by
        rw [Nat.add_mod, Nat.mod_eq_of_lt (a := 1) (by omega), Nat.mod_eq_of_lt]
        omega
      omega
  rw [hitAt_linesOf ht]
  rintro ⟨j, hj, hline, hlast⟩
  have hsame := mod_two_of_bitString hline
  rw [hparity, hparity] at hsame
  have hset : j % m / 2 % 4 = t % m / 2 % 4 := by
    have hset := congrArg indexOf hline
    rwa [indexOf_bitString, indexOf_bitString, Nat.cast_inj] at hset
  rcases Nat.mod_two_eq_zero_or_one j with heven | hodd
  · -- the next step throws the line of step `j` out
    have hnext := hpair j heven
    exact hlast (j + 1) (by omega) (by omega) (by rw [hnext, hset])
  · -- the step before the last one has thrown it out
    obtain ⟨u, rfl⟩ := Nat.exists_eq_succ_of_ne_zero (Nat.ne_of_gt (Nat.zero_lt_of_lt hj))
    have hbefore := hpair u (by omega)
    exact hlast u (by omega) (by omega) (by rw [← hbefore])

/-! ## The score of a trace -/

/-- The misses of a trace that hits from step `k` on and not before. -/
theorem misses_eq_min {tr : List (List Char)} {s₀ : Simulator} (hinit : Initial s₀)
    (hload : Loaded s₀.instructionCache tr) (haddr : ∀ a ∈ tr, IsAddress a) {k : ℕ}
    (hhit : ∀ t < tr.length, (HitAt tr t ↔ k ≤ t)) :
    ∀ {t : ℕ}, t ≤ tr.length → (simulate t s₀).cacheMisses = (min t k : ℕ) := by
  intro t
  induction t with
  | zero =>
    intro _
    rw [Nat.zero_min]
    exact hinit.misses
  | succ t ih =>
    intro ht
    have hcounts := simulate_counts hinit hload haddr ht
    rw [hhit t ht] at hcounts
    by_cases hk : k ≤ t
    · rw [(hcounts.1 hk).2, ih (by omega)]
      omega
    · rw [(hcounts.2 hk).2, ih (by omega)]
      omega

/-- The score of a generator whose trace hits from step `k` on. -/
theorem scores_of_hits {value : ℕ → ℤ} (hvalue : ∀ i, value i = f i) (hf : ∀ i, f i < 256)
    {k : ℕ} (hhit : ∀ t < n, (HitAt (linesOf f n) t ↔ k ≤ t)) :
    Scores (generate value n) n (min n k) (n - min n k) := by
  have hlength : (linesOf f n).length = n := length_linesOf
  refine ⟨linesOf f n, generate_eq hvalue hf, hlength, isAddress_linesOf,
    fun s₀ hinit hload => ?_, fun hrows mem => ?_⟩
  · have hmisses := misses_eq_min hinit hload isAddress_linesOf (k := k)
      (fun t ht => hhit t (by rwa [hlength] at ht)) hlength.ge
    have htotal := (tracks_simulate hinit hload isAddress_linesOf hlength.ge).total
    rw [List.length_take, hlength, Nat.min_self] at htotal
    refine ⟨hmisses, ?_⟩
    omega
  · have htable := loadTrace_text (isAddress_linesOf (f := f) (n := n)) mem
    rw [hlength, if_pos hrows] at htable
    refine ⟨_, htable, fun i a ha => ?_⟩
    have hshow : Shows (row (fillRows mem 0 (linesOf f n)) (0 + i)) a :=
      shows_fillRows isAddress_linesOf ha
    rwa [Nat.zero_add] at hshow

/-- **The traces of the lab.**  `FourTrace` misses in its first four steps and hits from then
on; `HostileTrace`, and `Trace` over the whole range of the addresses, miss in every step. -/
theorem traces_score (n range : ℕ) :
    Scores (fourTrace n range) n (min n 4) (n - min n 4) ∧
      Scores (hostileTrace n range) n n 0 ∧ Scores (regularTrace n 256) n n 0 := by
  have hnever : ∀ {m : ℕ}, m % 2 = 0 → ∀ t < n,
      (HitAt (linesOf (fun i => i % m) n) t ↔ n ≤ t) := fun hm t ht =>
    iff_of_false (not_hitAt_of_pairs hm ht) (Nat.not_le_of_lt ht)
  refine ⟨scores_of_hits (f := fun i => i % 4 * 2) (fun i => by push_cast; rfl)
    (fun i => by omega) fun t ht => hitAt_four_iff ht, ?_, ?_⟩
  · have hscore : Scores (hostileTrace n range) n (min n n) (n - min n n) :=
      scores_of_hits (f := fun i => i % 4) (fun i => by push_cast; rfl) (fun i => by omega)
        (hnever (by decide))
    rwa [Nat.min_self, Nat.sub_self] at hscore
  · have hscore : Scores (regularTrace n 256) n (min n n) (n - min n n) :=
      scores_of_hits (f := fun i => i % 256) (fun i => by push_cast; rfl) (fun i => by omega)
        (hnever (by decide))
    rwa [Nat.min_self, Nat.sub_self] at hscore

end CacheSimulator
end SystemsProjects

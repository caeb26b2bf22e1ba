import SystemsProjects.CacheSimulator.BinaryString

/-!
# The direct-mapped cache of `simulator.c`

`Lab6_Allocators/part1/simulator.c` replays a table of addresses, written as bit
strings, against a cache of four one-line sets.  The set of an address is read
from its bits 1 and 2.  `checkCache` decides between a cold miss, a hit and a
conflict miss, and the three functions it is split over each update a part of
the state: the flags, the lines, the counters and the latency.

`instructionCache` is the flat memory of the table, nine bytes a row, and the
memory around it.  The lines are kept as the strings in front of their
terminators.
-/

namespace SystemsProjects
namespace CacheSimulator

/-- `BITWIDTH`. -/
def bitwidth : ℕ := 8

/-- `ADDRESSES`: the rows of the table. -/
def addresses : ℕ := 1024

/-- `S`: the number of cache sets. -/
def sets : ℤ := 4

/-- `INDEX_START`: the first bit of the index. -/
def indexStart : ℤ := 1
/-- `INDEX_STOP`: the last bit of the index. -/
def indexStop : ℤ := 2

/-- `COST_OF_CACHE_HIT` -/
def costOfCacheHit : ℤ := 1
/-- `COST_OF_CACHE_MISS` -/
def costOfCacheMiss : ℤ := 100

/-- The globals of the program. -/
structure Simulator where
  instructionCache : ℤ → Char
  PC : ℤ
  cacheLines : ℤ → List Char
  cacheOccupied : ℤ → ℤ
  cacheHit : ℤ
  cacheMisses : ℤ
  totalLatency : ℤ

/-- `instructionCache[PC]`. -/
def instruction (s : Simulator) : CharPtr :=
  fun j => s.instructionCache (s.PC * (bitwidth + 1) + j)

/-- The set that the three functions below look at. -/
def cacheIndex (s : Simulator) : ℤ :=
  binaryStringRangeToInt (instruction s) indexStart indexStop

/-- The next address. -/
def stepSimulator (s : Simulator) : Simulator := { s with PC := s.PC + 1 }

/-- A miss, with its latency. -/
def incrementCacheMiss (s : Simulator) : Simulator :=
  { s with
    cacheMisses := s.cacheMisses + 1
    totalLatency := s.totalLatency + costOfCacheMiss }

/-- A hit, with its latency. -/
def incrementCacheHit (s : Simulator) : Simulator :=
  { s with
    cacheHit := s.cacheHit + 1
    totalLatency := s.totalLatency + costOfCacheHit }

/-- `ReplacementPolicy`: fill an empty line. -/
def replacementPolicy (s : Simulator) : Simulator :=
  let index := cacheIndex s
  incrementCacheMiss
    { s with
      cacheOccupied := Function.update s.cacheOccupied index 1
      cacheLines := Function.update s.cacheLines index (cString (instruction s)) }

/-- `evictionPolicy`: compare with an occupied line, and overwrite it when the
address differs. -/
def evictionPolicy (s : Simulator) : Simulator :=
  let index := cacheIndex s
  if s.cacheLines index = cString (instruction s) then
    incrementCacheHit s
  else
    incrementCacheMiss
      { s with cacheLines := Function.update s.cacheLines index (cString (instruction s)) }

/-- `checkCache`. -/
def checkCache (s : Simulator) : Simulator :=
  let index := cacheIndex s
  if s.cacheOccupied index = 0 then
    replacementPolicy s
  else if s.cacheOccupied index = 1 then
    evictionPolicy s
  else
    s

/-- `n` turns of the loop in `main`, the display left out. -/
def simulate : ℕ → Simulator → Simulator
  | 0, s => s
  | n + 1, s => stepSimulator (checkCache (simulate n s))

/-- The state in which `main` enters its loop: static counters are zero and the
flags have been cleared. -/
structure Initial (s : Simulator) : Prop where
  pc : s.PC = 0
  occupied : ∀ i, 0 ≤ i → i < sets → s.cacheOccupied i = 0
  hit : s.cacheHit = 0
  misses : s.cacheMisses = 0
  latency : s.totalLatency = 0

/-- A view of two characters gives a set number. -/
theorem binaryStringRangeToInt_index (bin : CharPtr) :
    0 ≤ binaryStringRangeToInt bin indexStart indexStop ∧
      binaryStringRangeToInt bin indexStart indexStop < sets := by
  show 0 ≤ rangeLoop bin 2 _ 0 0 ∧ rangeLoop bin 2 _ 0 0 < 4
  simp only [rangeLoop]
  split <;> split <;> constructor <;> decide

/-! ## What one step changes -/

@[simp] theorem stepSimulator_checkCache_instructionCache (s : Simulator) :
    (stepSimulator (checkCache s)).instructionCache = s.instructionCache := by
  simp only [stepSimulator, checkCache, replacementPolicy, evictionPolicy,
    incrementCacheMiss, incrementCacheHit]
  split_ifs <;> rfl

@[simp] theorem stepSimulator_checkCache_PC (s : Simulator) :
    (stepSimulator (checkCache s)).PC = s.PC + 1 := by
  simp only [stepSimulator, checkCache, replacementPolicy, evictionPolicy,
    incrementCacheMiss, incrementCacheHit]
  split_ifs <;> rfl

/-- A cold miss. -/
theorem checkCache_of_empty {s : Simulator} (h : s.cacheOccupied (cacheIndex s) = 0) :
    checkCache s = replacementPolicy s := if_pos h

/-- An occupied line is compared. -/
theorem checkCache_of_occupied {s : Simulator} (h : s.cacheOccupied (cacheIndex s) = 1) :
    checkCache s = evictionPolicy s := by
  rw [checkCache, if_neg (by rw [h]; decide), if_pos h]

theorem evictionPolicy_of_eq {s : Simulator}
    (h : s.cacheLines (cacheIndex s) = cString (instruction s)) :
    evictionPolicy s = incrementCacheHit s := if_pos h

theorem evictionPolicy_of_ne {s : Simulator}
    (h : s.cacheLines (cacheIndex s) ≠ cString (instruction s)) :
    evictionPolicy s = incrementCacheMiss
      { s with
        cacheLines := Function.update s.cacheLines (cacheIndex s)
          (cString (instruction s)) } := if_neg h

end CacheSimulator
end SystemsProjects

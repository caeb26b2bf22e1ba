import SystemsProjects.CacheSimulator.Encoding
import SystemsProjects.CacheSimulator.DirectMapped

/-!
# Trace files, from the generators to the table

`trace.c` writes one bit string a line, and `loadTrace` of `simulator.c` reads the lines into
the rows of `instructionCache`.  The reader has a buffer of ten characters and takes the last
character away from whatever it has read.  `loadTrace_text` says what it does with any number of
lines of eight bits: it fills as many rows, or it writes behind the table.

With that a trace of values comes back as it was written (`loads_back`).
-/

namespace SystemsProjects
namespace CacheSimulator

open Lib

/-! ## The generators -/

/-- `fprintf(fp, "%s\n", bin)` -/
def printLine (file bin : List Char) : List Char := file ++ (bin ++ ['\n'])

/-- One line of the file: a value in binary. -/
def printValue (file : List Char) (value : ℤ) : Except Fault (List Char) := do
  let bin ← intToBinaryString value bitwidth
  pure (printLine file bin)

/-- A file with a line for each value. -/
def writeTrace (values : List ℤ) : Except Fault (List Char) := values.foldlM printValue []

/-- The loop of all generators but one. -/
def generate (value : ℕ → ℤ) (size : ℕ) : Except Fault (List Char) :=
  writeTrace ((List.range size).map value)

/-- The even numbers below 8, round and round. -/
def fourTrace (size _range : ℕ) : Except Fault (List Char) := generate (fun i => i % 4 * 2) size

/-- The numbers below 4, round and round. -/
def hostileTrace (size _range : ℕ) : Except Fault (List Char) := generate (fun i => i % 4) size

/-- `Trace` -/
def regularTrace (size range : ℕ) : Except Fault (List Char) := generate (fun i => i % range) size

/-- `rand i` is the answer of call `i` of `rand()`. -/
def randomTrace (rand : ℕ → ℕ) (size range : ℕ) : Except Fault (List Char) :=
  generate (fun i => rand i % range) size

/-- One value on every line. -/
def singleTrace (size : ℕ) (value : ℤ) : Except Fault (List Char) := generate (fun _ => value) size

/-! ## The reader -/

/-- At most `n` characters, none behind a newline. -/
def readLine : ℕ → List Char → List Char × List Char
  | 0, file => ([], file)
  | _ + 1, [] => ([], [])
  | n + 1, c :: file =>
      if c = '\n' then ([c], file)
      else (c :: (readLine n file).1, (readLine n file).2)

/-- `fgets` with a buffer of `size` characters: the string and what is left of the file. -/
def fgets (size : ℕ) (file : List Char) : Option (List Char × List Char) :=
  if file = [] then none else some (readLine (size - 1) file)

/-- `strcpy` of the characters `s` and a terminator. -/
def strcpy (mem : ℤ → Char) (dest : ℤ) (s : List Char) : ℤ → Char := fun z =>
  if dest ≤ z ∧ z ≤ dest + s.length then s.getD (z - dest).toNat nul else mem z

/-- The body of the loop of `loadTrace`, on the file, `pos` and the table. -/
def loadBody : List Char × ℕ × (ℤ → Char) →
    Except Fault (List Char × ℕ × (ℤ → Char) ⊕ (ℤ → Char))
  | (file, pos, mem) => do
    match fgets (bitwidth + 2) file with
    | none => pure (.inr mem)
    | some (buffer, file) => do
      let str := buffer.takeWhile (· ≠ nul)
      -- `str[strlen(str) - 1]` of an empty string is in front of the buffer
      if str = [] then throw .outOfBounds
      if addresses ≤ pos then throw .outOfBounds
      pure (.inl (file, pos + 1, strcpy mem (pos * (bitwidth + 1)) str.dropLast))

/-- `loadTrace`, on the contents of the file and of the table before. -/
def loadTrace (file : List Char) (mem : ℤ → Char) : Except Fault (ℤ → Char) :=
  loop .diverges loadBody (file.length + 1) (file, 0, mem)

/-! ## Lines -/

/-- Every line and its newline. -/
def text (lines : List (List Char)) : List Char := lines.flatMap (· ++ ['\n'])

/-- The lines copied into the rows from `pos` on. -/
def fillRows (mem : ℤ → Char) (pos : ℕ) : List (List Char) → ℤ → Char
  | [] => mem
  | l :: lines => fillRows (strcpy mem (pos * (bitwidth + 1)) l) (pos + 1) lines

/-- Row `pos` of a table. -/
def row (mem : ℤ → Char) (pos : ℕ) : CharPtr := fun j => mem (pos * (bitwidth + 1) + j)

theorem IsAddress.ne_newline {l : List Char} (h : IsAddress l) {c : Char} (hc : c ∈ l) :
    c ≠ '\n' := by
  rcases h.binary c hc with rfl | rfl
  · decide
  · decide

theorem IsAddress.ne_nul {l : List Char} (h : IsAddress l) {c : Char} (hc : c ∈ l) :
    c ≠ nul := by
  rcases h.binary c hc with rfl | rfl
  · decide
  · decide

/-- A line that fits into the buffer. -/
theorem readLine_line {l : List Char} (hl : ∀ c ∈ l, c ≠ '\n') (file : List Char) :
    ∀ {n : ℕ}, l.length < n → readLine n (l ++ '\n' :: file) = (l ++ ['\n'], file) := by
  induction l with
  | nil =>
    intro n hn
    obtain ⟨n, rfl⟩ := Nat.exists_eq_succ_of_ne_zero (Nat.ne_of_gt hn)
    rfl
  | cons c l ih =>
    intro n hn
    obtain ⟨n, rfl⟩ := Nat.exists_eq_succ_of_ne_zero (Nat.ne_of_gt (Nat.zero_lt_of_lt hn))
    have hrest := ih (fun d hd => hl d (List.mem_cons_of_mem c hd))
      (Nat.lt_of_succ_lt_succ hn)
    rw [List.cons_append, readLine, if_neg (hl c List.mem_cons_self), hrest]
    rfl

theorem text_cons (l : List Char) (lines : List (List Char)) :
    text (l :: lines) = l ++ '\n' :: text lines := by
  unfold text
  rw [List.flatMap_cons, List.append_assoc]
  rfl

theorem length_lt_of_text (lines : List (List Char)) : lines.length < (text lines).length + 1 := by
  induction lines with
  | nil => exact Nat.zero_lt_one
  | cons l lines ih =>
    rw [text_cons, List.length_append, List.length_cons, List.length_cons]
    omega

/-- One round of the reader. -/
theorem loadBody_line {l : List Char} (hl : IsAddress l) (lines : List (List Char)) (pos : ℕ)
    (mem : ℤ → Char) :
    loadBody (text (l :: lines), pos, mem) =
      if pos < addresses then
        .ok (.inl (text lines, pos + 1, strcpy mem (pos * (bitwidth + 1)) l))
      else .error .outOfBounds := by
  have hread : fgets (bitwidth + 2) (text (l :: lines)) = some (l ++ ['\n'], text lines) := by
    rw [text_cons, fgets, if_neg (by simp), readLine_line (fun c hc => hl.ne_newline hc) _
      (by rw [hl.length_eq]; decide)]
  have htake : (l ++ ['\n']).takeWhile (fun c => decide (c ≠ nul)) = l ++ ['\n'] := by
    rw [List.takeWhile_eq_self_iff]
    intro c hc
    rw [decide_eq_true_eq]
    rcases List.mem_append.mp hc with hc | hc
    · exact hl.ne_nul hc
    · rw [List.mem_singleton.mp hc]
      decide
  unfold loadBody
  simp only [hread, htake]
  rw [if_neg (by simp), List.dropLast_concat]
  by_cases hpos : pos < addresses
  · rw [if_pos hpos, if_neg (Nat.not_le_of_lt hpos)]
    rfl
  · rw [if_neg hpos, if_pos (Nat.le_of_not_lt hpos)]
    rfl

theorem load_loop : ∀ {lines : List (List Char)} {pos fuel : ℕ} (mem : ℤ → Char),
    (∀ l ∈ lines, IsAddress l) → lines.length < fuel → pos ≤ addresses →
      loop .diverges loadBody fuel (text lines, pos, mem) =
        if pos + lines.length ≤ addresses then .ok (fillRows mem pos lines)
        else .error .outOfBounds := by
  intro lines
  induction lines with
  | nil =>
    intro pos fuel mem _ hfuel hpos
    obtain ⟨fuel, rfl⟩ := Nat.exists_eq_succ_of_ne_zero (Nat.ne_of_gt hfuel)
    rw [if_pos (by simpa using hpos)]
    exact loop_of_leave rfl
  | cons l lines ih =>
    intro pos fuel mem hlines hfuel hpos
    obtain ⟨fuel, rfl⟩ := Nat.exists_eq_succ_of_ne_zero (Nat.ne_of_gt (Nat.zero_lt_of_lt hfuel))
    obtain ⟨hl, hrest⟩ := List.forall_mem_cons.mp hlines
    have hbody := loadBody_line hl lines pos mem
    by_cases hroom : pos < addresses
    · rw [if_pos hroom] at hbody
      have hcount : pos + 1 + lines.length = pos + (l :: lines).length := by
        rw [List.length_cons]
        omega
      rw [loop_of_continue hbody, ih _ hrest (Nat.lt_of_succ_lt_succ hfuel)
        (show pos + 1 ≤ addresses from hroom), hcount, fillRows]
    · rw [if_neg hroom] at hbody
      rw [loop, hbody, error_bind, if_neg (by rw [List.length_cons]; omega)]

/-- **`loadTrace` on lines of eight bits** fills a row for each of them, if the table has so
many rows, and writes behind it otherwise. -/
theorem loadTrace_text {lines : List (List Char)} (h : ∀ l ∈ lines, IsAddress l)
    (mem : ℤ → Char) :
    loadTrace (text lines) mem =
      if lines.length ≤ addresses then .ok (fillRows mem 0 lines) else .error .outOfBounds := by
  unfold loadTrace
  rw [load_loop mem h (length_lt_of_text lines) (Nat.zero_le _), Nat.zero_add]

/-! ## Rows -/

/-- A copied string is there. -/
theorem shows_strcpy (mem : ℤ → Char) (dest : ℤ) {s : List Char} (hs : ∀ c ∈ s, c ≠ nul) :
    Shows (fun j => strcpy mem dest s (dest + j)) s := by
  have hat : ∀ i : ℕ, i ≤ s.length → strcpy mem dest s (dest + i) = s.getD i nul := by
    intro i hi
    have hoff : (dest + (i : ℤ) - dest).toNat = i := by omega
    rw [strcpy, if_pos (by omega), hoff]
  refine ⟨fun i c hc => ?_, ?_⟩
  · have hi := (List.getElem?_eq_some_iff.mp hc).1
    refine ⟨?_, hs c (List.mem_of_getElem? hc)⟩
    show strcpy mem dest s (dest + i) = c
    rw [hat i hi.le, List.getD_eq_getElem?_getD, hc]
    rfl
  · show strcpy mem dest s (dest + s.length) = nul
    rw [hat _ le_rfl, List.getD_eq_getElem?_getD, List.getElem?_eq_none le_rfl]
    rfl

/-- Memory in front of the rows and behind them is left alone. -/
theorem fillRows_frame : ∀ {lines : List (List Char)} {pos : ℕ} {mem : ℤ → Char} {z : ℤ},
    (∀ l ∈ lines, IsAddress l) →
    (z < pos * (bitwidth + 1) ∨ ((pos + lines.length : ℕ) : ℤ) * (bitwidth + 1) ≤ z) →
      fillRows mem pos lines z = mem z := by
  intro lines
  induction lines with
  | nil => exact fun _ _ => rfl
  | cons l lines ih =>
    intro pos mem z hlines hz
    obtain ⟨hl, hrest⟩ := List.forall_mem_cons.mp hlines
    have hlen := hl.length_eq
    simp only [bitwidth, List.length_cons] at hz ⊢
    rw [fillRows, ih hrest (by simp only [bitwidth]; omega), strcpy,
      if_neg (by simp only [bitwidth]; omega)]

/-- **Every line is in its row.** -/
theorem shows_fillRows : ∀ {lines : List (List Char)} {pos : ℕ} {mem : ℤ → Char},
    (∀ l ∈ lines, IsAddress l) → ∀ {k : ℕ} {l : List Char}, lines[k]? = some l →
      Shows (row (fillRows mem pos lines) (pos + k)) l := by
  intro lines
  induction lines with
  | nil => exact fun _ _ _ h => by simp at h
  | cons l' lines ih =>
    intro pos mem hlines k l hk
    obtain ⟨hl, hrest⟩ := List.forall_mem_cons.mp hlines
    cases k with
    | zero =>
      obtain rfl : l' = l := Option.some.inj hk
      have hlen := hl.length_eq
      have hshow := shows_strcpy mem (pos * (bitwidth + 1)) (fun c hc => hl.ne_nul hc)
      have hkeep : ∀ i : ℕ, i ≤ l'.length →
          row (fillRows mem pos (l' :: lines)) pos i =
            strcpy mem (pos * (bitwidth + 1)) l' (pos * (bitwidth + 1) + i) := by
        intro i hi
        rw [row, fillRows, fillRows_frame hrest (by simp only [bitwidth]; omega)]
      refine ⟨fun i c hc => ?_, ?_⟩
      · rw [Nat.add_zero, hkeep i (List.getElem?_eq_some_iff.mp hc).1.le]
        exact hshow.1 i c hc
      · rw [Nat.add_zero, hkeep _ le_rfl]
        exact hshow.2
    | succ k =>
      rw [← Nat.succ_add_eq_add_succ, fillRows]
      exact ih hrest (by simpa using hk)

/-! ## Values -/

theorem isAddress_bitString (v : ℕ) : IsAddress (bitString 8 v) where
  length_eq := length_bitString 8 v
  binary := fun _ hc => binary_of_mem_bitString 8 hc

/-- Character `7 - k` is bit `k`. -/
theorem getElem?_bitString (k : ℕ) : ∀ {n v : ℕ}, k < n →
    (bitString n v)[n - 1 - k]? = some (bitChar (v / 2 ^ k)) := by
  induction k with
  | zero =>
    intro n v hn
    obtain ⟨n, rfl⟩ := Nat.exists_eq_succ_of_ne_zero (Nat.ne_of_gt hn)
    rw [bitString, List.getElem?_append_right (by rw [length_bitString]; omega),
      length_bitString]
    simp
  | succ k ih =>
    intro n v hn
    obtain ⟨n, rfl⟩ := Nat.exists_eq_succ_of_ne_zero (Nat.ne_of_gt (Nat.zero_lt_of_lt hn))
    have hplace : n.succ - 1 - (k + 1) = n - 1 - k := by omega
    rw [bitString, hplace, List.getElem?_append_left (by rw [length_bitString]; omega),
      ih (Nat.lt_of_succ_lt_succ hn), Nat.div_div_eq_div_mul, ← pow_succ']

theorem bitChar_eq_one_iff (v : ℕ) : some (bitChar v) = some '1' ↔ v % 2 = 1 := by
  unfold bitChar
  split
  · rename_i h
    exact iff_of_false (by decide) (by omega)
  · rename_i h
    exact iff_of_true rfl (by omega)

/-- **The set of a value** is given by its bits 1 and 2. -/
theorem indexOf_bitString (v : ℕ) : indexOf (bitString 8 v) = (v / 2 % 4 : ℕ) := by
  have h₆ : (bitString 8 v)[6]? = some (bitChar (v / 2 ^ 1)) :=
    getElem?_bitString 1 (by decide)
  have h₅ : (bitString 8 v)[5]? = some (bitChar (v / 2 ^ 2)) :=
    getElem?_bitString 2 (by decide)
  rw [indexOf, h₅, h₆]
  simp only [bitChar_eq_one_iff]
  split_ifs <;> omega

theorem foldlM_printValue {values : List ℤ} (h : ∀ v ∈ values, 0 ≤ v ∧ v < 256) :
    ∀ file : List Char, values.foldlM printValue file =
      .ok (file ++ text (values.map fun v => bitString 8 v.toNat)) := by
  induction values with
  | nil =>
    intro file
    rw [List.map_nil, text, List.flatMap_nil, List.append_nil]
    rfl
  | cons v values ih =>
    intro file
    obtain ⟨⟨hnonneg, hlt⟩, hrest⟩ := List.forall_mem_cons.mp h
    have hprint : printValue file v = .ok (file ++ (bitString 8 v.toNat ++ ['\n'])) := by
      obtain ⟨n, rfl⟩ := Int.eq_ofNat_of_zero_le hnonneg
      unfold printValue
      rw [intToBinaryString_eq n (by decide),
        if_pos (show n < 2 ^ bitwidth by rw [bitwidth]; omega)]
      rfl
    rw [List.foldlM_cons, hprint, ok_bind, ih hrest, List.map_cons, text_cons]
    simp

/-- The file of a list of values. -/
theorem writeTrace_eq {values : List ℤ} (h : ∀ v ∈ values, 0 ≤ v ∧ v < 256) :
    writeTrace values = .ok (text (values.map fun v => bitString 8 v.toNat)) :=
  foldlM_printValue h []

/-- **What comes back from a file**: row `k` is the bit string of value `k`, the decoder gives
the value, and `checkCache` looks at set `v / 2 % 4`. -/
def LoadsBack (written : Except Fault (List Char)) (values : List ℤ) : Prop :=
  ∀ mem : ℤ → Char, ∃ file table, written = .ok file ∧ loadTrace file mem = .ok table ∧
    ∀ (k : ℕ) (v : ℤ), values[k]? = some v →
      Shows (row table k) (bitString bitwidth v.toNat) ∧
      binaryStringToInt (row table k) (bitwidth + 1) = v ∧
      ∀ s : Simulator, s.instructionCache = table → s.PC = k → cacheIndex s = v / 2 % 4

/-- **Generated traces load back exactly.** -/
theorem loads_back (values : List ℤ) (hlength : values.length ≤ addresses)
    (hvalues : ∀ v ∈ values, 0 ≤ v ∧ v < 256) : LoadsBack (writeTrace values) values := by
  intro mem
  have haddr : ∀ l ∈ values.map fun v => bitString 8 v.toNat, IsAddress l := by
    intro l hl
    obtain ⟨v, -, rfl⟩ := List.mem_map.mp hl
    exact isAddress_bitString _
  have hload := loadTrace_text haddr mem
  rw [List.length_map, if_pos hlength] at hload
  refine ⟨_, _, writeTrace_eq hvalues, hload, fun k v hk => ?_⟩
  obtain ⟨hnonneg, hlt⟩ := hvalues v (List.mem_of_getElem? hk)
  obtain ⟨n, rfl⟩ := Int.eq_ofNat_of_zero_le hnonneg
  have hshow : Shows (row (fillRows mem 0 _) (0 + k)) (bitString 8 n) :=
    shows_fillRows haddr (by rw [List.getElem?_map, hk]; rfl)
  rw [Nat.zero_add] at hshow
  have hfits : n < 2 ^ bitwidth := by
    rw [bitwidth]
    omega
  refine ⟨hshow, binaryStringToInt_bitString hfits hshow, fun s htable hpc => ?_⟩
  have hinstruction : instruction s = row (fillRows mem 0
      (values.map fun v => bitString 8 v.toNat)) k := by
    unfold instruction row
    rw [htable, hpc]
  unfold cacheIndex
  rw [hinstruction, binaryStringRangeToInt_of_shows hshow (isAddress_bitString n),
    indexOf_bitString]
  rfl

/-- The least and the greatest value. -/
theorem loads_back_two : LoadsBack (writeTrace [0, 255]) [0, 255] :=
  loads_back [0, 255] (by decide) (by decide)

/-! ## The files of `trace.c` -/

/-- A file of `size` values in 0..255. -/
def Generated (written : Except Fault (List Char)) (size : ℕ) : Prop :=
  ∃ values : List ℤ, written = writeTrace values ∧ values.length = size ∧
    ∀ v ∈ values, 0 ≤ v ∧ v < 256

theorem generated_generate {value : ℕ → ℤ} (h : ∀ i, 0 ≤ value i ∧ value i < 256) (size : ℕ) :
    Generated (generate value size) size := by
  refine ⟨(List.range size).map value, rfl, by simp, fun v hv => ?_⟩
  obtain ⟨i, -, rfl⟩ := List.mem_map.mp hv
  exact h i

/-- **The generators** write such files, for a range of at most 256 values. -/
theorem generated_traces {range : ℕ} (hpos : 0 < range) (hrange : range ≤ 256) (size : ℕ)
    (rand : ℕ → ℕ) {value : ℤ} (hvalue : 0 ≤ value ∧ value < 256) :
    Generated (fourTrace size range) size ∧ Generated (hostileTrace size range) size ∧
      Generated (regularTrace size range) size ∧ Generated (randomTrace rand size range) size ∧
      Generated (singleTrace size value) size := by
  have hmod : ∀ n : ℕ, n % range < 256 := fun n => (Nat.mod_lt n hpos).trans_le hrange
  refine ⟨generated_generate (fun i => ?_) size, generated_generate (fun i => ?_) size,
    generated_generate (fun i => ?_) size, generated_generate (fun i => ?_) size,
    generated_generate (fun _ => hvalue) size⟩
  · omega
  · omega
  · exact ⟨by exact_mod_cast Nat.zero_le _, by exact_mod_cast hmod i⟩
  · exact ⟨by exact_mod_cast Nat.zero_le _, by exact_mod_cast hmod (rand i)⟩

end CacheSimulator
end SystemsProjects

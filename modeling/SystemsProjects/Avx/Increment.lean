import SystemsProjects.Lib.Cells
import SystemsProjects.Lib.CInt
import SystemsProjects.Lib.Loop
import SystemsProjects.Lib.Scanf

/-!
# Adding one, a block at a time: `ex1.c` and `ex2.c`

Both exercises of `Lab8_AVX` read integers into an array of 256, add one to a block of them
with a vector instruction, and print the block: 8 numbers in `ex1.c`, 32 characters in
`ex2.c`.  They differ in the width of a block and the type of its lanes, and `increment` is
the program for any of them.

The arguments of the instruction that packs a block stand in the reverse order of its lanes,
and the lanes are printed in order, so that a block comes out as it stood in the array
(`block_eq`).  What goes wrong is outside of the blocks: the count `i` is not initialised, and
the last block is printed whole.  `vector_loop_iff` is the condition for the output to be that
of a plain loop.
-/

namespace SystemsProjects
namespace Avx

open Lib

/-! ## The code -/

/-- Why a program does not come to its end. -/
inductive Fault where
  /-- an access outside of `buff` -/
  | outOfBounds
  /-- `i` gets too large -/
  | overflow
  /-- the rounds of a loop are used up -/
  | diverges
  deriving DecidableEq, Repr

/-- What the program does not decide: the values that `i` and `buff` start with, and what
`fscanf` stores for a number that is not in the range of an `int`. -/
structure Environment where
  i : ℤ
  buff : ℤ → BitVec 32
  outOfRange : ℤ → BitVec 32

/-- What is stored in an `int` for the number `v` of the file. -/
def Environment.convert (env : Environment) (v : ℤ) : BitVec 32 :=
  if -2 ^ 31 ≤ v ∧ v < 2 ^ 31 then BitVec.ofInt 32 v else env.outOfRange v

/-- The elements of `buff`. -/
def buffSize : ℤ := 256

/-- `buff[k]` -/
def getBuff (buff : ℤ → BitVec 32) (k : ℤ) : Except Fault (BitVec 32) :=
  if 0 ≤ k ∧ k < buffSize then pure (buff k) else .error .outOfBounds

/-- `buff[k] = v` -/
def setBuff (buff : ℤ → BitVec 32) (k : ℤ) (v : BitVec 32) : Except Fault (ℤ → BitVec 32) :=
  if 0 ≤ k ∧ k < buffSize then pure (Function.update buff k v) else .error .outOfBounds

/-- `++i` -/
def succ (i : ℤ) : Except Fault ℤ := if i < 2 ^ 31 - 1 then pure (i + 1) else .error .overflow

/-- The body of `while(fscanf(fp, "%d", &buff[i]) != EOF)`, on the file, `i` and `buff`. -/
def readBody (env : Environment) : List Char × ℤ × (ℤ → BitVec 32) →
    Except Fault (List Char × ℤ × (ℤ → BitVec 32) ⊕ ℤ × (ℤ → BitVec 32))
  | (file, i, buff) =>
    match scanInt file with
    | .eof => pure (.inr (i, buff))
    | .noMatch rest => do
      let i ← succ i
      pure (.inl (rest, i, buff))
    | .number v rest => do
      let buff ← setBuff buff i (env.convert v)
      let i ← succ i
      pure (.inl (rest, i, buff))

section Vectors

variable {w : ℕ} {β : Type}

/-- `_mm256_set_epi32` and `_mm256_set_epi8`: the last argument is lane 0. -/
def mm256Set (arguments : List (BitVec w)) : List (BitVec w) := arguments.reverse

/-- `_mm256_set1_epi32` and `_mm256_set1_epi8`. -/
def mm256Set1 (lanes : ℕ) (v : BitVec w) : List (BitVec w) := List.replicate lanes v

/-- `_mm256_add_epi32` and `_mm256_add_epi8`. -/
def mm256Add (x y : List (BitVec w)) : List (BitVec w) := List.zipWith (· + ·) x y

/-- The body of the second loop, on `j` and the rows printed so far.  `toLane` is the
conversion of an `int` to the type of a lane, and `print` that of a lane to what is printed. -/
def printBody (lanes : ℕ) (toLane : BitVec 32 → BitVec w) (print : BitVec w → β) (i : ℤ)
    (buff : ℤ → BitVec 32) : ℤ × List (List β) → Except Fault (ℤ × List (List β) ⊕ List (List β))
  | (j, rows) =>
    if j < i then do
      -- `buff[j + 7], …, buff[j]`, for eight lanes
      let arguments ← (places j lanes).reverse.mapM (getBuff buff)
      let data := mm256Set (arguments.map toLane)
      let result := mm256Add (mm256Set1 lanes 1) data
      pure (.inl (j + lanes, rows ++ [result.map print]))
    else pure (.inr rows)

/-- `main`, with at most `fuel` rounds of a loop: the rows that are printed. -/
def increment (lanes : ℕ) (toLane : BitVec 32 → BitVec w) (print : BitVec w → β)
    (env : Environment) (file : List Char) (fuel : ℕ) : Except Fault (List (List β)) := do
  let (i, buff) ← loop .diverges (readBody env) fuel (file, env.i, env.buff)
  loop .diverges (printBody lanes toLane print i buff) fuel (0, [])

end Vectors

/-- `main` of `ex1.c`: eight lanes of an `int`, printed with `%d`. -/
def ex1 (env : Environment) (file : List Char) (fuel : ℕ) : Except Fault (List (List ℤ)) :=
  increment 8 id BitVec.toInt env file fuel

/-- `main` of `ex2.c`: 32 lanes of a `char`, printed with `%c`. -/
def ex2 (env : Environment) (file : List Char) (fuel : ℕ) : Except Fault (List (List ℕ)) :=
  increment 32 (BitVec.setWidth 8) BitVec.toNat env file fuel

/-! ## What is claimed -/

/-- The file is a sequence of `int`s with white space between them. -/
def HoldsInts (file : List Char) (values : List ℤ) : Prop :=
  Numerals file values ∧ ∀ v ∈ values, -2 ^ 31 ≤ v ∧ v < 2 ^ 31

/-- The program ends, and has printed these items. -/
def Prints {β : Type} (run : ℕ → Except Fault (List (List β))) (items : List β) : Prop :=
  ∃ fuel rows, run fuel = .ok rows ∧ rows.flatten = items

/-- **`ex1` is the plain loop**: each integer plus one, modulo 2^32. -/
def Ex1Scalar (env : Environment) (file : List Char) (values : List ℤ) : Prop :=
  Prints (ex1 env file) (values.map fun v => toInt32 (v + 1))

/-- **`ex2` is the plain loop**: each low byte plus one, modulo 256. -/
def Ex2Scalar (env : Environment) (file : List Char) (values : List ℤ) : Prop :=
  Prints (ex2 env file) (values.map fun v => ((v % 256 + 1) % 256).toNat)

/-- The blocks cover what was read: nothing, or whole blocks from the start. -/
def BlocksFit (lanes : ℕ) (env : Environment) (n : ℕ) : Prop :=
  (n = 0 ∧ env.i ≤ 0) ∨ (env.i = 0 ∧ lanes ∣ n)

/-! ## Reading -/

section Reading

variable {env : Environment} {file : List Char} {values : List ℤ} {i : ℤ}
  {buff : ℤ → BitVec 32}

theorem readBody_eof (h : scanInt file = .eof) :
    readBody env (file, i, buff) = .ok (.inr (i, buff)) := by
  rw [readBody, h]
  rfl

/-- A number is stored if there is room for it. -/
theorem readBody_number (env : Environment) (i : ℤ) (buff : ℤ → BitVec 32) {v : ℤ}
    {rest : List Char} (h : scanInt file = .number v rest) :
    readBody env (file, i, buff) =
      if 0 ≤ i ∧ i < buffSize then
        .ok (.inl (rest, i + 1, Function.update buff i (env.convert v)))
      else .error .outOfBounds := by
  rw [readBody, h]
  dsimp only
  by_cases hi : 0 ≤ i ∧ i < buffSize
  · have hsucc : i < 2 ^ 31 - 1 := by
      rw [buffSize] at hi
      omega
    rw [setBuff, if_pos hi, if_pos hi, pure_eq_ok, ok_bind, succ, if_pos hsucc]
    rfl
  · rw [setBuff, if_neg hi, if_neg hi]
    rfl

/-- **Reading with room**: the numbers stand in the array from `i` on. -/
theorem read_loop (env : Environment) : ∀ {values : List ℤ} {file : List Char} {i : ℤ}
    {buff : ℤ → BitVec 32} {fuel : ℕ}, Numerals file values → 0 ≤ i → i + values.length ≤ buffSize →
      values.length < fuel →
      ∃ buff', loop .diverges (readBody env) fuel (file, i, buff) =
          .ok (i + values.length, buff') ∧
        Cells buff' i (values.map env.convert) ∧ ∀ z < i, buff' z = buff z := by
  intro values
  induction values with
  | nil =>
    intro file i buff fuel hfile _ _ hfuel
    obtain ⟨fuel, rfl⟩ := Nat.exists_eq_succ_of_ne_zero (Nat.ne_of_gt hfuel)
    have heof : scanInt file = .eof := by
      by_contra hne
      obtain ⟨v, rest, hv, -⟩ := hfile.cons hne
      cases hv
    refine ⟨buff, ?_, rfl, fun _ _ => rfl⟩
    rw [loop_of_leave (readBody_eof heof), List.length_nil, Nat.cast_zero, add_zero]
  | cons v values ih =>
    intro file i buff fuel hfile hi hroom hfuel
    rw [List.length_cons] at hroom hfuel
    push_cast at hroom
    obtain ⟨fuel, rfl⟩ := Nat.exists_eq_succ_of_ne_zero (Nat.ne_of_gt (Nat.zero_lt_of_lt hfuel))
    have hne : scanInt file ≠ .eof := fun h => by
      cases hfile.nil h
    obtain ⟨v', rest, hv, hscan, hrest⟩ := hfile.cons hne
    obtain ⟨rfl, rfl⟩ := List.cons.inj hv
    have hbody := readBody_number env i buff hscan
    rw [if_pos ⟨hi, by omega⟩] at hbody
    obtain ⟨buff', hloop, hcells, hbelow⟩ := ih hrest
      (show 0 ≤ i + 1 by omega) (by omega) (Nat.lt_of_succ_lt_succ hfuel)
    refine ⟨buff', ?_, ?_, fun z hz => ?_⟩
    · rw [loop_of_continue hbody, hloop, List.length_cons]
      push_cast
      rw [add_assoc, add_comm (1 : ℤ)]
    · rw [List.map_cons, cells_cons]
      refine ⟨?_, hcells⟩
      rw [hbelow i (by omega), Function.update_self]
    · rw [hbelow z (by omega), Function.update_of_ne (by omega)]

/-- **What a reading that ends says about its start**: `i` has gone up by the number of
integers, and if there is one it has been stored inside the array. -/
theorem of_read_loop : ∀ {values : List ℤ} {file : List Char} {i i' : ℤ}
    {buff buff' : ℤ → BitVec 32} {fuel : ℕ}, Numerals file values →
      loop .diverges (readBody env) fuel (file, i, buff) = .ok (i', buff') →
      i' = i + values.length ∧ (values = [] ∨ 0 ≤ i) := by
  intro values
  induction values with
  | nil =>
    intro file i i' buff buff' fuel hfile hloop
    cases fuel with
    | zero => cases hloop
    | succ fuel =>
      have heof : scanInt file = .eof := by
        by_contra hne
        obtain ⟨v, rest, hv, -⟩ := hfile.cons hne
        cases hv
      rw [loop_of_leave (readBody_eof heof)] at hloop
      rw [← (Prod.mk.inj (Except.ok.inj hloop)).1, List.length_nil, Nat.cast_zero, add_zero]
      exact ⟨rfl, Or.inl rfl⟩
  | cons v values ih =>
    intro file i i' buff buff' fuel hfile hloop
    have hne : scanInt file ≠ .eof := fun h => by
      cases hfile.nil h
    obtain ⟨v', rest, hv, hscan, hrest⟩ := hfile.cons hne
    obtain ⟨rfl, rfl⟩ := List.cons.inj hv
    have hbody := readBody_number env i buff hscan
    cases fuel with
    | zero => cases hloop
    | succ fuel =>
      by_cases hi : 0 ≤ i ∧ i < buffSize
      · rw [if_pos hi] at hbody
        rw [loop_of_continue hbody] at hloop
        obtain ⟨hcount, -⟩ := ih hrest hloop
        rw [List.length_cons]
        push_cast
        exact ⟨by omega, Or.inr hi.1⟩
      · rw [if_neg hi] at hbody
        rw [loop_of_error hbody] at hloop
        cases hloop

end Reading

/-! ## Blocks -/

section Blocks

variable {w : ℕ} {β : Type} {lanes : ℕ} {toLane : BitVec 32 → BitVec w} {print : BitVec w → β}
  {i j : ℤ} {buff : ℤ → BitVec 32} {rows : List (List β)}

/-- The elements that are packed stand in the array. -/
theorem arguments_eq (hj : 0 ≤ j) (hroom : j + lanes ≤ buffSize) :
    (places j lanes).reverse.mapM (getBuff buff) = .ok ((places j lanes).map buff).reverse := by
  rw [← List.map_reverse]
  refine mapM_eq_ok fun k hk => ?_
  rw [List.mem_reverse, mem_places] at hk
  rw [getBuff, if_pos (by omega)]
  rfl

/-- One is added in every lane. -/
theorem mm256Add_set1 (l : List (BitVec w)) :
    mm256Add (mm256Set1 l.length 1) l = l.map fun x => x + 1 := by
  induction l with
  | nil => rfl
  | cons a l ih =>
    have hcons : mm256Add (mm256Set1 (a :: l).length 1) (a :: l) =
        (1 + a) :: mm256Add (mm256Set1 l.length 1) l := rfl
    rw [hcons, ih, List.map_cons, BitVec.add_comm]

/-- What a plain loop prints for one element. -/
def scalar (toLane : BitVec 32 → BitVec w) (print : BitVec w → β) (x : BitVec 32) : β :=
  print (toLane x + 1)

/-- **A block comes out as it stood in the array.** -/
theorem block_eq (hji : j < i) (hj : 0 ≤ j) (hroom : j + lanes ≤ buffSize) :
    printBody lanes toLane print i buff (j, rows) =
      .ok (.inl (j + lanes, rows ++ [((places j lanes).map buff).map (scalar toLane print)])) := by
  have hlength : (((places j lanes).map buff).map toLane).length = lanes := by
    rw [List.length_map, List.length_map, length_places]
  have hadd := mm256Add_set1 (((places j lanes).map buff).map toLane)
  rw [hlength] at hadd
  rw [printBody, if_pos hji, arguments_eq hj hroom, ok_bind, mm256Set, List.map_reverse,
    List.reverse_reverse]
  dsimp only
  rw [hadd, List.map_map, List.map_map]
  rfl

/-- **Printing whole blocks** prints what stands in them. -/
theorem print_loop (hlanes : 0 < lanes) : ∀ {m : ℕ} {j : ℤ} {xs : List (BitVec 32)}
    {rows : List (List β)} {fuel : ℕ}, xs.length = lanes * m → Cells buff j xs → 0 ≤ j →
      j + xs.length = i → i ≤ buffSize → m < fuel →
      ∃ rows', loop .diverges (printBody lanes toLane print i buff) fuel (j, rows) = .ok rows' ∧
        rows'.flatten = rows.flatten ++ xs.map (scalar toLane print) := by
  intro m
  induction m with
  | zero =>
    intro j xs rows fuel hlength _ _ hend _ hfuel
    obtain ⟨fuel, rfl⟩ := Nat.exists_eq_succ_of_ne_zero (Nat.ne_of_gt hfuel)
    obtain rfl : xs = [] := List.length_eq_zero_iff.mp (by rw [hlength, Nat.mul_zero])
    have hleave : printBody lanes toLane print i buff (j, rows) = .ok (.inr rows) := by
      rw [List.length_nil] at hend
      rw [printBody, if_neg (by omega)]
      rfl
    exact ⟨rows, loop_of_leave hleave, by rw [List.map_nil, List.append_nil]⟩
  | succ m ih =>
    intro j xs rows fuel hlength hcells hj hend hmax hfuel
    obtain ⟨fuel, rfl⟩ := Nat.exists_eq_succ_of_ne_zero (Nat.ne_of_gt (Nat.zero_lt_of_lt hfuel))
    rw [Nat.mul_succ] at hlength
    have hfront : (xs.take lanes).length = lanes := by
      rw [List.length_take]
      omega
    have hback : (xs.drop lanes).length = lanes * m := by
      rw [List.length_drop]
      omega
    rw [← List.take_append_drop lanes xs, cells_append, hfront] at hcells
    have hblock : printBody lanes toLane print i buff (j, rows) = .ok (.inl (j + lanes,
        rows ++ [((places j lanes).map buff).map (scalar toLane print)])) :=
      block_eq (by omega) hj (by omega)
    have hcells₁ : (places j lanes).map buff = xs.take lanes := by
      have h := hcells.1
      rw [Cells, hfront] at h
      exact h
    rw [hcells₁] at hblock
    obtain ⟨rows', hloop, hrows⟩ := ih hback hcells.2 (show 0 ≤ j + lanes by omega)
      (by rw [hback]; push_cast at hend ⊢; omega) hmax (Nat.lt_of_succ_lt_succ hfuel)
    refine ⟨rows', (loop_of_continue hblock).trans hloop, ?_⟩
    rw [hrows, List.flatten_append, List.append_assoc]
    conv_rhs => rw [← List.take_append_drop lanes xs, List.map_append]
    rw [List.flatten_cons, List.flatten_nil, List.append_nil]

/-- **What a printing that ends says**: there are whole blocks, and they reach up to `i`. -/
theorem of_print_loop {fuel : ℕ}
    (hloop : loop .diverges (printBody lanes toLane print i buff) fuel (0, []) = .ok rows) :
    lanes ∣ rows.flatten.length ∧ i ≤ rows.flatten.length := by
  refine loop_preserves (I := fun q : ℤ × List (List β) =>
      lanes ∣ q.2.flatten.length ∧ q.1 = q.2.flatten.length)
    (Q := fun rows => lanes ∣ rows.flatten.length ∧ i ≤ rows.flatten.length)
    (s := (0, [])) (fun q q' hq hbody => ?_) (fun q rows hq hbody => ?_) ⟨dvd_zero lanes, rfl⟩
    hloop
  · obtain ⟨j, rows⟩ := q
    obtain ⟨hwhole, hj⟩ := hq
    dsimp only at hwhole hj
    rw [printBody] at hbody
    split at hbody
    · rw [bind_eq_ok] at hbody
      obtain ⟨arguments, harguments, hbody⟩ := hbody
      have hlength := length_of_mapM harguments
      rw [List.length_reverse, length_places] at hlength
      have hrow : (mm256Add (mm256Set1 lanes 1)
          (mm256Set (arguments.map toLane))).length = lanes := by
        rw [mm256Add, mm256Set1, mm256Set, List.length_zipWith, List.length_replicate,
          List.length_reverse, List.length_map, hlength, Nat.min_self]
      rw [← Sum.inl.inj (Except.ok.inj hbody)]
      dsimp only
      rw [List.flatten_append, List.flatten_cons, List.flatten_nil, List.append_nil,
        List.length_append, List.length_map, hrow, hj]
      exact ⟨Nat.dvd_add hwhole dvd_rfl, by push_cast; rfl⟩
    · cases Except.ok.inj hbody
  · obtain ⟨j, rows'⟩ := q
    obtain ⟨hwhole, hj⟩ := hq
    dsimp only at hwhole hj
    rw [printBody] at hbody
    split at hbody
    · rw [bind_eq_ok] at hbody
      obtain ⟨arguments, -, hbody⟩ := hbody
      cases Except.ok.inj hbody
    · rename_i hend
      obtain rfl := Sum.inr.inj (Except.ok.inj hbody)
      exact ⟨hwhole, by omega⟩

end Blocks

/-! ## The program -/

section Program

variable {w : ℕ} {β : Type} {lanes : ℕ} {toLane : BitVec 32 → BitVec w} {print : BitVec w → β}
  {env : Environment} {file : List Char} {values : List ℤ}

/-- What a plain loop prints for the integers of a file. -/
def scalarItems (toLane : BitVec 32 → BitVec w) (print : BitVec w → β) (env : Environment)
    (values : List ℤ) : List β := (values.map env.convert).map (scalar toLane print)

theorem prints_of_blocksFit (hlanes : 0 < lanes) (hfile : Numerals file values)
    (hshort : values.length ≤ 256) (hfit : BlocksFit lanes env values.length) :
    Prints (increment lanes toLane print env file) (scalarItems toLane print env values) := by
  rcases hfit with ⟨hnone, hi⟩ | ⟨hzero, m, hm⟩
  · obtain rfl := List.length_eq_zero_iff.mp hnone
    have heof : scanInt file = .eof := by
      by_contra hne
      obtain ⟨v, rest, hv, -⟩ := hfile.cons hne
      cases hv
    have hprint : printBody lanes toLane print env.i env.buff (0, []) = .ok (.inr []) := by
      rw [printBody, if_neg (by omega)]
      rfl
    refine ⟨1, [], ?_, rfl⟩
    rw [increment, loop_of_leave (readBody_eof heof), ok_bind]
    exact loop_of_leave hprint
  · have hmax : (0 : ℤ) + values.length ≤ buffSize := by
      rw [buffSize]
      omega
    have hfuel : values.length < values.length + 1 := Nat.lt_succ_self _
    obtain ⟨buff, hread, hcells, -⟩ : ∃ buff, loop .diverges (readBody env)
        (values.length + 1) (file, 0, env.buff) = .ok (0 + values.length, buff) ∧
          Cells buff 0 (values.map env.convert) ∧ ∀ z < 0, buff z = env.buff z :=
      read_loop env hfile le_rfl hmax hfuel
    have hblocks : m < values.length + 1 := by
      have hle := Nat.le_mul_of_pos_left m hlanes
      omega
    have hlength : (values.map env.convert).length = values.length := List.length_map _
    obtain ⟨rows, hprint, hrows⟩ : ∃ rows, loop .diverges
        (printBody lanes toLane print (0 + values.length) buff) (values.length + 1) (0, []) =
          .ok rows ∧ rows.flatten = [].flatten ++ scalarItems toLane print env values :=
      print_loop hlanes (hlength.trans hm) hcells le_rfl (by rw [hlength]) hmax hblocks
    refine ⟨values.length + 1, rows, ?_, hrows⟩
    rw [increment, hzero, hread, ok_bind]
    exact hprint

theorem blocksFit_of_prints (hfile : Numerals file values)
    (h : Prints (increment lanes toLane print env file) (scalarItems toLane print env values)) :
    BlocksFit lanes env values.length := by
  obtain ⟨fuel, rows, hrun, hrows⟩ := h
  rw [increment, bind_eq_ok] at hrun
  obtain ⟨⟨i, buff⟩, hread, hprint⟩ := hrun
  obtain ⟨hcount, hstart⟩ := of_read_loop hfile hread
  obtain ⟨hwhole, hcover⟩ := of_print_loop hprint
  have hlength : rows.flatten.length = values.length := by
    rw [hrows, scalarItems, List.length_map, List.length_map]
  rw [hlength] at hwhole hcover
  rcases hstart with hnil | hnonneg
  · rw [hnil, List.length_nil] at hcount hcover ⊢
    exact Or.inl ⟨rfl, by omega⟩
  · exact Or.inr ⟨by omega, hwhole⟩

/-- **A vector loop is the plain loop** exactly if its blocks fit. -/
theorem prints_iff (hlanes : 0 < lanes) (hfile : Numerals file values)
    (hshort : values.length ≤ 256) :
    Prints (increment lanes toLane print env file) (scalarItems toLane print env values) ↔
      BlocksFit lanes env values.length :=
  ⟨blocksFit_of_prints hfile, prints_of_blocksFit hlanes hfile hshort⟩

theorem convert_of_holdsInts (h : HoldsInts file values) {v : ℤ} (hv : v ∈ values) :
    env.convert v = BitVec.ofInt 32 v := if_pos (h.2 v hv)

/-- The items of `ex1.c`. -/
theorem scalarItems_ex1 (env : Environment) (h : HoldsInts file values) :
    scalarItems id BitVec.toInt env values = values.map fun v => toInt32 (v + 1) := by
  rw [scalarItems, List.map_map]
  refine List.map_congr_left fun v hv => ?_
  show (env.convert v + 1).toInt = toInt32 (v + 1)
  rw [convert_of_holdsInts h hv, show (1 : BitVec 32) = BitVec.ofInt 32 1 from rfl,
    ← BitVec.ofInt_add, BitVec.toInt_ofInt]
  rfl

/-- The items of `ex2.c`. -/
theorem scalarItems_ex2 (env : Environment) (h : HoldsInts file values) :
    scalarItems (BitVec.setWidth 8) BitVec.toNat env values =
      values.map fun v => ((v % 256 + 1) % 256).toNat := by
  rw [scalarItems, List.map_map]
  refine List.map_congr_left fun v hv => ?_
  show ((env.convert v).setWidth 8 + 1).toNat = _
  rw [convert_of_holdsInts h hv, BitVec.toNat_add, BitVec.toNat_setWidth, BitVec.toNat_ofInt]
  show ((v % (2 ^ 32 : ℕ)).toNat % 2 ^ 8 + 1) % 2 ^ 8 = _
  omega

end Program

/-! ## The claim -/

/-- **The vector loops and the plain loops.**  For every file of at most 256 integers,
whatever the variables start with: `ex1` prints each integer plus one, and `ex2` each low byte
plus one, exactly if the array is filled from its start and the integers fill whole blocks of
8 and of 32 (or there are none, and `i` starts with no more than 0). -/
theorem vector_loop_iff (env : Environment) (file : List Char) (values : List ℤ)
    (hfile : HoldsInts file values) (hshort : values.length ≤ 256) :
    (Ex1Scalar env file values ↔ BlocksFit 8 env values.length) ∧
      (Ex2Scalar env file values ↔ BlocksFit 32 env values.length) := by
  rw [Ex1Scalar, Ex2Scalar, ← scalarItems_ex1 env hfile, ← scalarItems_ex2 env hfile]
  exact ⟨prints_iff (by decide) hfile.1 hshort, prints_iff (by decide) hfile.1 hshort⟩

/-! ## A file of sevens -/

/-- The variables start with zeros. -/
def zeros : Environment := ⟨0, fun _ => 0, fun _ => 0⟩

theorem isNumeral_seven : IsNumeral ['7'] 7 := by
  refine ⟨[], ['7'], rfl, Or.inl rfl, List.cons_ne_nil _ _, fun c hc => ?_, by decide⟩
  rw [List.mem_singleton.mp hc]
  decide

/-- A line for each seven. -/
theorem holdsInts_sevens (n : ℕ) :
    HoldsInts (List.replicate n ['7', '\n']).flatten (List.replicate n 7) := by
  refine ⟨?_, fun v hv => ?_⟩
  · induction n with
    | zero => exact numerals_nil_of_blank fun c hc => absurd hc List.not_mem_nil
    | succ n ih =>
      rw [Numerals, List.replicate_succ, List.replicate_succ, List.flatten_cons]
      show List.Forall₂ IsNumeral (fields isSpace ('7' :: '\n' :: _)) _
      rw [fields_of_not_head (by decide)]
      exact List.Forall₂.cons isNumeral_seven ih
  · rw [List.eq_of_mem_replicate hv]
    decide

/-- With `i` starting at zero, eight sevens are a block of `ex1` and not one of `ex2`. -/
theorem vector_loop_sevens :
    Ex1Scalar zeros (List.replicate 8 ['7', '\n']).flatten (List.replicate 8 7) ∧
      ¬ Ex2Scalar zeros (List.replicate 8 ['7', '\n']).flatten (List.replicate 8 7) := by
  obtain ⟨hfst, hsnd⟩ := vector_loop_iff zeros _ _ (holdsInts_sevens 8) (by decide)
  exact ⟨hfst.mpr (Or.inr ⟨rfl, dvd_refl 8⟩),
    fun hscalar => absurd (hsnd.mp hscalar) (by unfold BlocksFit; decide)⟩

/-- One seven is printed with the rest of its block, even if `i` starts at zero. -/
theorem not_vector_loop :
    ¬ ∀ (env : Environment) (file : List Char) (values : List ℤ), HoldsInts file values →
      values.length ≤ 256 → Ex1Scalar env file values ∧ Ex2Scalar env file values := by
  intro hall
  have hfile := holdsInts_sevens 1
  obtain ⟨hscalar, -⟩ := hall zeros _ _ hfile (by decide)
  rw [Ex1Scalar, ← scalarItems_ex1 zeros hfile] at hscalar
  exact absurd (blocksFit_of_prints hfile.1 hscalar) (by unfold BlocksFit; decide)

end Avx
end SystemsProjects

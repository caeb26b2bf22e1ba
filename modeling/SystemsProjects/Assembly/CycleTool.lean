import SystemsProjects.Lib.Strtok
import SystemsProjects.Lib.TextLines
import SystemsProjects.Lib.Loop

/-!
# The cycle count tool: `Assignment3_Assembly/part3/tool.c`

The tool reads an assembly text line by line.  It cuts a line at the first `#`, takes it to
pieces at the tabs, and compares the first four and the first three letters of every piece, in
lower case, with its words.  Each match adds one to the count of a family of instructions and to
the total.

So a piece need not begin with a mnemonic in order to be counted, and a mnemonic that does not
begin a piece is not counted.  `main_eq` says what the counts are: `hits`, one element for
every match, as long as the total fits into an `int`.
-/

namespace SystemsProjects
namespace Assembly
namespace CycleTool

open Lib

/-- The families of instructions that are counted. -/
inductive Family where
  | mov | lea | add | sub | mul | div | pop | ret | push
  deriving DecidableEq, Repr

/-- In the order of the report. -/
def families : List Family := [.mov, .lea, .add, .sub, .mul, .div, .pop, .ret, .push]

/-- How the tool can fail. -/
inductive Fault where
  /-- an `int` is increased beyond `INT_MAX` -/
  | overflow
  | diverges
  deriving DecidableEq, Repr

/-! ## The code -/

/-- The counts of the families, and `total`. -/
structure Counters where
  count : Family → ℕ
  total : ℕ

/-- Before the first line. -/
def Counters.zero : Counters := ⟨fun _ => 0, 0⟩

/-- `i + 1` of an `int`. -/
def succ (i : ℕ) : Except Fault ℕ := if i < 2 ^ 31 - 1 then pure (i + 1) else .error .overflow

/-- `push = push + 1; total++;`, and so on for each family. -/
def increment (c : Counters) (f : Family) : Except Fault Counters := do
  let n ← succ (c.count f)
  let total ← succ c.total
  pure ⟨Function.update c.count f n, total⟩

/-- `tolower` in the C locale. -/
def tolower (c : UInt8) : UInt8 :=
  if 65 ≤ c.toNat ∧ c.toNat ≤ 90 then UInt8.ofNat (c.toNat + 32) else c

theorem tolower_ne_zero {c : UInt8} (hc : c ≠ 0) : tolower c ≠ 0 := by
  rw [tolower]
  split
  · intro h
    have hnat := congrArg UInt8.toNat h
    rw [UInt8.toNat_ofNat'] at hnat
    simp only [UInt8.toNat_zero] at hnat
    omega
  · exact hc

/-- The loops over `tolower`. -/
def lower (s : CString) : CString where
  bytes := s.bytes.map tolower
  nulFree h := by
    obtain ⟨c, hc, hzero⟩ := List.mem_map.mp h
    exact tolower_ne_zero (fun h0 => s.nulFree (h0 ▸ hc)) hzero

/-- `strncat(dest, p, n)` -/
def strncat (dest p : CString) (n : ℕ) : CString :=
  dest.append ⟨p.bytes.take n, fun h => p.nulFree (List.mem_of_mem_take h)⟩

/-- The string in a buffer. -/
def stringIn (buff : List UInt8) : CString :=
  ⟨buff.takeWhile (· ≠ 0), fun h => by simpa using List.mem_takeWhile_imp h⟩

/-- A string of the program text. -/
def word (letters : List Char) : CString := stringIn (letters.map fun c => c.toNat.toUInt8)

/-- What `four` is compared with. -/
def fourWords : List (CString × Family) :=
  [(word ['p', 'u', 's', 'h'], .push), (word ['i', 'm', 'u', 'l'], .mul),
    (word ['l', 'm', 'u', 'l'], .mul), (word ['i', 'd', 'i', 'v'], .div),
    (word ['l', 'd', 'i', 'v'], .div)]

/-- What `three` is compared with. -/
def threeWords : List (CString × Family) :=
  [(word ['m', 'o', 'v'], .mov), (word ['l', 'e', 'a'], .lea), (word ['a', 'd', 'd'], .add),
    (word ['s', 'u', 'b'], .sub), (word ['m', 'u', 'l'], .mul), (word ['d', 'i', 'v'], .div),
    (word ['p', 'o', 'p'], .pop), (word ['r', 'e', 't'], .ret)]

/-- `i = strcmp(buffer, "…"); if(i==0){ … }` -/
def compare (buffer : CString) (c : Counters) (e : CString × Family) : Except Fault Counters :=
  if strcmp buffer e.1 = 0 then increment c e.2 else pure c

/-- The body of the loop over `strtok`, on the counters.  The buffers are taken as large enough
for what `strncat` puts in them. -/
def countPiece (c : Counters) (p : CString) : Except Fault Counters := do
  let four := lower (strncat (stringIn []) p 4)
  let c ← fourWords.foldlM (compare four) c
  let three := lower (strncat (stringIn []) four 3)
  threeWords.foldlM (compare three) c

/-- `"\n\t"` -/
def isDelimiter (c : UInt8) : Bool := c = 10 || c = 9

/-- The body of the loop over `fgets`, on the counters: the string ends at the first `#`. -/
def countLine (c : Counters) (buff : List UInt8) : Except Fault Counters :=
  (tokens isDelimiter ((stringIn buff).takeWhile (· ≠ 35))).foldlM countPiece c

/-- One round of `while(fgets(buff, 255, fp))`. -/
def readBody : List UInt8 × Counters → Except Fault (List UInt8 × Counters ⊕ Counters)
  | (fp, c) =>
    match fgets 10 255 fp with
    | none => pure (.inr c)
    | some (buff, fp) => do
      let c ← countLine c buff
      pure (.inl (fp, c))

/-- The sum of the last line, in an `int`. -/
def cycles (c : Counters) : Except Fault ℕ :=
  let n := c.count .mov + c.count .lea + 6 * c.count .add + 6 * c.count .sub + 5 * c.count .mul +
    50 * c.count .div + c.count .pop + 2 * c.count .ret + c.count .push
  if n < 2 ^ 31 then pure n else .error .overflow

/-- What is printed.  The cycles are added up when the counts have been printed. -/
structure Report where
  count : Family → ℕ
  total : ℕ
  cycles : Except Fault ℕ

/-- `main`, on the contents of the file. -/
def main (file : List UInt8) : Except Fault Report := do
  let c ← loop .diverges readBody (file.length + 1) (file, Counters.zero)
  pure ⟨c.count, c.total, cycles c⟩

/-! ## What a piece is counted as -/

/-- The words of the tool. -/
def words : List (CString × Family) := fourWords ++ threeWords

/-- The piece begins with the letters of the word, in any case. -/
def BeginsWith (p w : List UInt8) : Prop := w <+: p.map tolower

instance (p w : List UInt8) : Decidable (BeginsWith p w) := inferInstanceAs (Decidable (_ <+: _))

/-- The families that a piece adds to, once for each match. -/
def pieceHits (p : List UInt8) : List Family :=
  (words.filter fun e => BeginsWith p e.1.bytes).map Prod.snd

/-- The pieces of a line, without its comment. -/
def pieces (l : List UInt8) : List (List UInt8) := fields isDelimiter (l.takeWhile (· ≠ 35))

/-- One element for every match. -/
def hits (text : List UInt8) : List Family :=
  (textLines 10 text).flatMap fun l => (pieces l).flatMap pieceHits

/-! ## The counts -/

theorem tolower_tolower (c : UInt8) : tolower (tolower c) = tolower c := by
  have hlow : ¬ (65 ≤ (tolower c).toNat ∧ (tolower c).toNat ≤ 90) := by
    rw [tolower]
    split
    · rw [UInt8.toNat_ofNat']
      omega
    · assumption
  conv_lhs => rw [tolower]
  exact if_neg hlow

/-- `strcmp` on the first `n` letters of a piece, in lower case. -/
theorem strcmp_lower {s p : CString} {w : CString} {n : ℕ} (hw : w.bytes.length = n)
    (hs : s.bytes = (p.bytes.take n).map tolower) :
    strcmp s w = 0 ↔ BeginsWith p.bytes w.bytes := by
  rw [strcmp_eq_zero_iff, BeginsWith, List.prefix_iff_eq_take, hw, ← List.map_take, ← hs, eq_comm,
    CString.mk.injEq]

/-- The comparisons of one buffer. -/
theorem foldlM_compare {s p : CString} {n : ℕ} (hs : s.bytes = (p.bytes.take n).map tolower)
    {table : List (CString × Family)} (htable : ∀ e ∈ table, e.1.bytes.length = n)
    (c : Counters) :
    table.foldlM (compare s) c =
      ((table.filter fun e => BeginsWith p.bytes e.1.bytes).map Prod.snd).foldlM increment c := by
  rw [List.foldlM_map, List.foldlM_filter]
  induction table generalizing c with
  | nil => rfl
  | cons e table ih =>
    obtain ⟨he, htable⟩ := List.forall_mem_cons.mp htable
    have hcompare : compare s c e =
        if decide (BeginsWith p.bytes e.1.bytes) = true then increment c e.2 else pure c := by
      rw [compare]
      exact if_congr ((strcmp_lower he hs).trans decide_eq_true_iff.symm) rfl rfl
    rw [List.foldlM_cons, List.foldlM_cons, hcompare]
    exact congrArg _ (funext fun c => ih htable c)

/-- **One piece.** -/
theorem countPiece_eq (c : Counters) (p : CString) :
    countPiece c p = (pieceHits p.bytes).foldlM increment c := by
  have hfour : (lower (strncat (stringIn []) p 4)).bytes = (p.bytes.take 4).map tolower := rfl
  have hthree : (lower (strncat (stringIn []) (lower (strncat (stringIn []) p 4)) 3)).bytes =
      (p.bytes.take 3).map tolower := by
    show ((((p.bytes.take 4).map tolower).take 3).map tolower) = _
    rw [← List.map_take, List.take_take, List.map_map]
    exact List.map_congr_left fun c _ => tolower_tolower c
  rw [countPiece, pieceHits, words, List.filter_append, List.map_append, List.foldlM_append,
    foldlM_compare hfour (by decide)]
  exact congrArg _ (funext fun c => foldlM_compare hthree (by decide) c)

/-- The counts of several pieces or lines, one behind the other. -/
theorem foldlM_flatMap {α : Type} {step : Counters → α → Except Fault Counters}
    {f : α → List Family} {l : List α}
    (hstep : ∀ c, ∀ a ∈ l, step c a = (f a).foldlM increment c) (c : Counters) :
    l.foldlM step c = (l.flatMap f).foldlM increment c := by
  induction l generalizing c with
  | nil => rfl
  | cons a l ih =>
    rw [List.foldlM_cons, hstep c a List.mem_cons_self, List.flatMap_cons, List.foldlM_append]
    exact congrArg _ (funext fun c => ih (fun c b hb => hstep c b (List.mem_cons_of_mem a hb)) c)

/-- **One line.** -/
theorem countLine_eq {buff : List UInt8} (hnul : 0 ∉ buff) (c : Counters) :
    countLine c buff = ((pieces buff).flatMap pieceHits).foldlM increment c := by
  have hbuff : (stringIn buff).bytes = buff := by
    refine List.takeWhile_eq_self_iff.mpr fun x hx => decide_eq_true ?_
    rintro rfl
    exact hnul hx
  have hpieces : (tokens isDelimiter ((stringIn buff).takeWhile (· ≠ 35))).map CString.bytes =
      pieces buff := by
    rw [tokens_bytes]
    exact congrArg (fun l => fields isDelimiter (l.takeWhile (· ≠ 35))) hbuff
  rw [countLine, foldlM_flatMap fun c p _ => countPiece_eq c p, ← hpieces, List.flatMap_map]

/-- The newline does not matter. -/
theorem pieces_newline (l : List UInt8) : pieces (l ++ [10]) = pieces l := by
  have hend : ∀ k : List UInt8, fields isDelimiter (k ++ [10]) = fields isDelimiter k :=
    fun k => by
      rw [fields_append_cons (show isDelimiter 10 = true from rfl), fields_nil, List.append_nil]
  rw [pieces, pieces]
  by_cases hhash : ∀ x ∈ l, decide (x ≠ 35) = true
  · rw [List.takeWhile_append_of_pos hhash, List.takeWhile_eq_self_iff.mpr hhash]
    exact hend l
  · congr 1
    rw [List.takeWhile_append, if_neg]
    intro hlen
    exact hhash (List.takeWhile_eq_self_iff.mp
      ((List.takeWhile_prefix _).eq_of_length hlen))

/-- **The loop over the lines.** -/
theorem read_loop : ∀ {fuel : ℕ} {text : List UInt8} (c : Counters), text.length < fuel →
    0 ∉ text → (∀ l ∈ textLines 10 text, l.length < 254) →
      loop .diverges readBody fuel (text, c) = (hits text).foldlM increment c := by
  intro fuel
  induction fuel with
  | zero => exact fun c hfuel => absurd hfuel (Nat.not_lt_zero _)
  | succ fuel ih =>
    intro text c hfuel hnul hshort
    have hread : ∀ {buff fp : List UInt8}, fgets 10 255 text = some (buff, fp) →
        loop .diverges readBody (fuel + 1) (text, c) =
          countLine c buff >>= fun c => loop .diverges readBody fuel (fp, c) := by
      intro buff fp hfgets
      rw [loop, readBody, hfgets]
      dsimp only
      cases countLine c buff with
      | error e => rfl
      | ok c => rfl
    rcases textLines_cases 10 text with hlast | ⟨l, rest, hl, rfl⟩
    · rw [textLines_of_notMem hlast, List.forall_mem_singleton] at hshort
      by_cases hne : text = []
      · rw [hne]
        exact loop_of_leave rfl
      · rw [hread (fgets_last hlast hne (Nat.le_of_lt hshort)), countLine_eq hnul, hits,
          textLines_of_notMem hlast, List.flatMap_singleton]
        refine (bind_congr fun c => ?_).trans (bind_pure _)
        obtain ⟨fuel, rfl⟩ := Nat.exists_eq_succ_of_ne_zero
          (Nat.ne_of_gt (Nat.lt_of_lt_of_le (List.length_pos_iff.mpr hne)
            (Nat.le_of_lt_succ hfuel)))
        exact loop_of_leave rfl
    · rw [textLines_append hl, List.forall_mem_cons] at hshort
      rw [List.mem_append, List.mem_cons, not_or, not_or] at hnul
      rw [List.length_append, List.length_cons] at hfuel
      have hline : 0 ∉ l ++ [10] := by
        rw [List.mem_append, List.mem_singleton, not_or]
        exact ⟨hnul.1, by decide⟩
      rw [hread (fgets_line hl hshort.1), countLine_eq hline, pieces_newline, hits,
        textLines_append hl, List.flatMap_cons, List.foldlM_append]
      exact bind_congr fun c => ih c (by omega) hnul.2.2 hshort.2

/-- One more match. -/
theorem increment_eq {c : Counters} {f : Family} (hle : c.count f ≤ c.total) :
    increment c f = if c.total < 2 ^ 31 - 1 then
        .ok ⟨Function.update c.count f (c.count f + 1), c.total + 1⟩
      else .error .overflow := by
  rw [increment, succ, succ]
  by_cases htotal : c.total < 2 ^ 31 - 1
  · rw [if_pos htotal, if_pos htotal, if_pos (Nat.lt_of_le_of_lt hle htotal)]
    rfl
  · rw [if_neg htotal, if_neg htotal]
    split <;> rfl

/-- **The counters after a list of matches.** -/
theorem foldlM_increment (fs : List Family) : ∀ c : Counters, (∀ f, c.count f ≤ c.total) →
    c.total < 2 ^ 31 → fs.foldlM increment c =
      if c.total + fs.length < 2 ^ 31 then
        .ok ⟨fun f => c.count f + fs.count f, c.total + fs.length⟩
      else .error .overflow := by
  induction fs with
  | nil =>
    intro c _ htotal
    exact (if_pos htotal).symm
  | cons f fs ih =>
    intro c hle htotal
    rw [List.foldlM_cons, increment_eq (hle f), List.length_cons]
    by_cases hlast : c.total < 2 ^ 31 - 1
    · have hcount : ∀ g, Function.update c.count f (c.count f + 1) g + fs.count g =
          c.count g + (f :: fs).count g := by
        intro g
        by_cases hgf : g = f
        · rw [hgf, Function.update_self, List.count_cons_self]
          omega
        · rw [Function.update_of_ne hgf, List.count_cons_of_ne (Ne.symm hgf)]
      have hle' : ∀ g, Function.update c.count f (c.count f + 1) g ≤ c.total + 1 := by
        intro g
        by_cases hgf : g = f
        · rw [hgf, Function.update_self]
          exact Nat.succ_le_succ (hle f)
        · rw [Function.update_of_ne hgf]
          exact (hle g).trans (Nat.le_succ _)
      have hlen : c.total + 1 + fs.length = c.total + (fs.length + 1) := by omega
      rw [if_pos hlast, ok_bind, ih _ hle' (show c.total + 1 < 2 ^ 31 by omega)]
      simp only [hcount, hlen]
    · rw [if_neg hlast, error_bind, if_neg (by omega)]

/-- **What the tool counts**, as long as the total fits into an `int`. -/
theorem main_eq {text : List UInt8} (hnul : 0 ∉ text)
    (hshort : ∀ l ∈ textLines 10 text, l.length < 254) :
    main text = if (hits text).length < 2 ^ 31 then
        .ok ⟨fun f => (hits text).count f, (hits text).length,
          cycles ⟨fun f => (hits text).count f, (hits text).length⟩⟩
      else .error .overflow := by
  rw [main, read_loop Counters.zero (Nat.lt_succ_self _) hnul hshort,
    foldlM_increment _ Counters.zero (fun _ => le_refl 0) (by decide)]
  simp only [Counters.zero, Nat.zero_add]
  split <;> rfl

end CycleTool
end Assembly
end SystemsProjects

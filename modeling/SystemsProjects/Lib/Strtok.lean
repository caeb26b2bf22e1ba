import SystemsProjects.Lib.CString
import SystemsProjects.Lib.Fields

/-!
# `strtok`

`strtok(s, delim)` skips the delimiters at the front of `s`, returns the bytes up
to the next delimiter, and remembers the place behind it; `strtok(NULL, delim)`
goes on from there.  Here a call returns the token together with what is left,
and a set of delimiters is a predicate on bytes.

`tokens` is the list that a loop over `strtok` collects, and `tokens_bytes` says
what it is: the nonempty pieces between the delimiters, in order.
-/

namespace SystemsProjects
namespace Lib

/-! ## Parts of a string -/

namespace CString

/-- The rest of a string behind the bytes at its front that meet `p`. -/
def dropWhile (p : UInt8 → Bool) (s : CString) : CString :=
  ⟨s.bytes.dropWhile p, fun h => s.nulFree ((List.dropWhile_sublist p).mem h)⟩

/-- The bytes at the front of a string that meet `p`. -/
def takeWhile (p : UInt8 → Bool) (s : CString) : CString :=
  ⟨s.bytes.takeWhile p, fun h => s.nulFree ((List.takeWhile_sublist p).mem h)⟩

/-- A string without its first byte. -/
def tail (s : CString) : CString :=
  ⟨s.bytes.tail, fun h => s.nulFree (List.mem_of_mem_tail h)⟩

/-- One string behind another, as `strcat` puts it. -/
def append (s t : CString) : CString :=
  ⟨s.bytes ++ t.bytes, fun h => (List.mem_append.mp h).elim s.nulFree t.nulFree⟩

end CString

/-! ## The function -/

/-- The token that `strtok` returns, and the string it goes on with; `none` is NULL. -/
def strtok (delim : UInt8 → Bool) (s : CString) : Option (CString × CString) :=
  let s := s.dropWhile delim
  if s.bytes = [] then none
  else some (s.takeWhile (!delim ·), (s.dropWhile (!delim ·)).tail)

/-- The string in the buffer after `strtok` has put a NUL behind the token. -/
def afterStrtok (delim : UInt8 → Bool) (s : CString) : CString :=
  (s.takeWhile delim).append ((s.dropWhile delim).takeWhile (!delim ·))

/-- The tokens of at most `n` calls. -/
def tokensUpTo (delim : UInt8 → Bool) : ℕ → CString → List CString
  | 0, _ => []
  | n + 1, s =>
    match strtok delim s with
    | none => []
    | some (split, rest) => split :: tokensUpTo delim n rest

/-- The tokens of `split = strtok(s, delim); while(split != NULL) { … split =
strtok(NULL, delim); }`.  Every call takes a byte at least. -/
def tokens (delim : UInt8 → Bool) (s : CString) : List CString :=
  tokensUpTo delim (strlen s) s

theorem strtok_eq_none_iff {delim : UInt8 → Bool} {s : CString} :
    strtok delim s = none ↔ fields delim s.bytes = [] := by
  rw [strtok, fields_eq_nil_iff]
  simp [CString.dropWhile]

/-- **One call of `strtok`**: the token is the first piece, and the rest has the
other pieces. -/
theorem strtok_fields {delim : UInt8 → Bool} {s split rest : CString}
    (h : strtok delim s = some (split, rest)) :
    fields delim s.bytes = split.bytes :: fields delim rest.bytes := by
  simp only [strtok] at h
  split at h
  · cases h
  · rename_i hne
    simp only [Option.some.injEq, Prod.mk.injEq] at h
    obtain ⟨rfl, rfl⟩ := h
    rw [← fields_dropWhile]
    rcases hb : s.bytes.dropWhile delim with _ | ⟨a, l⟩
    · exact absurd hb hne
    · have ha : ¬ delim a := by
        have := List.head_dropWhile_not delim (l := s.bytes) (by rw [hb]; simp)
        simpa [hb] using this
      rw [fields_of_not_head ha]
      simp [CString.takeWhile, CString.dropWhile, CString.tail, hb]

theorem strlen_of_strtok {delim : UInt8 → Bool} {s split rest : CString}
    (h : strtok delim s = some (split, rest)) :
    strlen split ≤ strlen s ∧ strlen rest < strlen s := by
  simp only [strtok] at h
  split at h
  · cases h
  · rename_i hne
    simp only [Option.some.injEq, Prod.mk.injEq] at h
    obtain ⟨rfl, rfl⟩ := h
    have hdrop : (s.bytes.dropWhile delim).length ≤ s.bytes.length :=
      (List.dropWhile_sublist delim).length_le
    have hpos : 0 < (s.bytes.dropWhile delim).length := List.length_pos_iff.mpr hne
    have htake := (List.takeWhile_sublist (l := s.bytes.dropWhile delim) (!delim ·)).length_le
    have hrest := (List.dropWhile_sublist (l := s.bytes.dropWhile delim) (!delim ·)).length_le
    simp only [strlen, CString.takeWhile, CString.dropWhile, CString.tail, List.length_tail]
    omega

theorem strlen_afterStrtok_le (delim : UInt8 → Bool) (s : CString) :
    strlen (afterStrtok delim s) ≤ strlen s := by
  have h := congrArg List.length (List.takeWhile_append_dropWhile (p := delim) (l := s.bytes))
  have htake := (List.takeWhile_sublist (l := s.bytes.dropWhile delim) (!delim ·)).length_le
  rw [List.length_append] at h
  simp only [strlen, afterStrtok, CString.append, CString.takeWhile, CString.dropWhile,
    List.length_append]
  omega

/-! ## All tokens -/

theorem tokensUpTo_bytes {delim : UInt8 → Bool} {n : ℕ} {s : CString} (hn : strlen s ≤ n) :
    (tokensUpTo delim n s).map CString.bytes = fields delim s.bytes := by
  induction n generalizing s with
  | zero =>
    have hs : s.bytes = [] := List.length_eq_zero_iff.mp (Nat.le_zero.mp hn)
    rw [hs, fields_nil]
    rfl
  | succ n ih =>
    rw [tokensUpTo]
    rcases h : strtok delim s with _ | ⟨split, rest⟩
    · exact (strtok_eq_none_iff.mp h).symm
    · have hlt := (strlen_of_strtok h).2
      rw [strtok_fields h, ← ih (by omega)]
      rfl

/-- **The tokens of a string** are its nonempty pieces between delimiters. -/
theorem tokens_bytes (delim : UInt8 → Bool) (s : CString) :
    (tokens delim s).map CString.bytes = fields delim s.bytes :=
  tokensUpTo_bytes le_rfl

theorem length_tokensUpTo_le (delim : UInt8 → Bool) (n : ℕ) (s : CString) :
    (tokensUpTo delim n s).length ≤ n := by
  induction n generalizing s with
  | zero => exact le_rfl
  | succ n ih =>
    rw [tokensUpTo]
    rcases strtok delim s with _ | ⟨split, rest⟩
    · exact Nat.zero_le _
    · exact Nat.succ_le_succ (ih rest)

/-- There are not more tokens than bytes. -/
theorem length_tokens_le (delim : UInt8 → Bool) (s : CString) :
    (tokens delim s).length ≤ strlen s :=
  length_tokensUpTo_le delim (strlen s) s

theorem strlen_le_of_mem_tokensUpTo {delim : UInt8 → Bool} {n : ℕ} {s t : CString}
    (ht : t ∈ tokensUpTo delim n s) : strlen t ≤ strlen s := by
  induction n generalizing s with
  | zero => cases ht
  | succ n ih =>
    rw [tokensUpTo] at ht
    rcases h : strtok delim s with _ | ⟨split, rest⟩
    · rw [h] at ht
      cases ht
    · rw [h, List.mem_cons] at ht
      obtain ⟨hsplit, hrest⟩ := strlen_of_strtok h
      rcases ht with rfl | ht
      · exact hsplit
      · exact (ih ht).trans hrest.le

theorem strlen_le_of_mem_tokens {delim : UInt8 → Bool} {s t : CString}
    (ht : t ∈ tokens delim s) : strlen t ≤ strlen s :=
  strlen_le_of_mem_tokensUpTo ht

theorem tokens_eq_nil_iff {delim : UInt8 → Bool} {s : CString} :
    tokens delim s = [] ↔ fields delim s.bytes = [] := by
  rw [← tokens_bytes, List.map_eq_nil_iff]

end Lib
end SystemsProjects

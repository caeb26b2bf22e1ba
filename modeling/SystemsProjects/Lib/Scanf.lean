import SystemsProjects.Lib.Fields

/-!
# Reading numbers with `scanf`

A call of `scanf("%d", …)` skips white space, takes a sign if there is one, and then as many
digits as there are.  It has three outcomes, of which the middle one is easily forgotten: the
input is at its end; there is a character that starts no number, and it stays where it is; or
a number was read.  (A sign without a digit behind it is taken all the same.)

Two rules are about what a call leaves behind: a character of another kind is never passed
(`scanInt_stuck`), and without one each call takes a character (`scanInt_progress`).  The
third one is about numerals between white space (`scanInt_numeral`).
-/

namespace SystemsProjects
namespace Lib

/-- `isspace` -/
def isSpace (c : Char) : Bool :=
  c = ' ' || c = '\t' || c = '\n' || c = '\x0b' || c = '\x0c' || c = '\r'

/-- A character that may stand in front of the digits. -/
def isSign (c : Char) : Bool := c = '+' || c = '-'

/-- The outcome of a call, with the rest of the input. -/
inductive Scan where
  | eof
  | noMatch (rest : List Char)
  | number (value : ℤ) (rest : List Char)
  deriving DecidableEq

/-- A sign at the front, and what is behind it. -/
def splitSign : List Char → List Char × List Char
  | [] => ([], [])
  | c :: l => if isSign c then ([c], l) else ([], c :: l)

/-- The number that digits denote. -/
def digitsValue (digits : List Char) : ℕ :=
  digits.foldl (fun v c => 10 * v + (c.toNat - 48)) 0

/-- The number with its sign. -/
def signedValue (sign digits : List Char) : ℤ :=
  if sign = ['-'] then -(digitsValue digits : ℤ) else digitsValue digits

/-- `scanf("%d", …)` -/
def scanInt (f : List Char) : Scan :=
  let f := f.dropWhile isSpace
  if f = [] then .eof
  else
    let sign := (splitSign f).1
    let digits := (splitSign f).2.takeWhile Char.isDigit
    let rest := (splitSign f).2.dropWhile Char.isDigit
    if digits = [] then .noMatch rest else .number (signedValue sign digits) rest

/-- A numeral, with its value. -/
def IsNumeral (s : List Char) (v : ℤ) : Prop :=
  ∃ sign digits, s = sign ++ digits ∧ (sign = [] ∨ sign = ['+'] ∨ sign = ['-']) ∧
    digits ≠ [] ∧ (∀ c ∈ digits, c.isDigit) ∧ v = signedValue sign digits

variable {f f' : List Char} {c : Char} {v : ℤ}

/-! ## Characters -/

theorem isSpace_false_of_isDigit (h : c.isDigit) : isSpace c = false := by
  by_contra hs
  simp only [isSpace, Bool.or_eq_true, decide_eq_true_eq, Bool.not_eq_false] at hs
  rcases hs with ((((rfl | rfl) | rfl) | rfl) | rfl) | rfl <;> exact absurd h (by decide)

theorem isSign_false_of_isDigit (h : c.isDigit) : isSign c = false := by
  by_contra hs
  simp only [isSign, Bool.or_eq_true, decide_eq_true_eq, Bool.not_eq_false] at hs
  rcases hs with rfl | rfl <;> exact absurd h (by decide)

theorem splitSign_append (f : List Char) : (splitSign f).1 ++ (splitSign f).2 = f := by
  cases f with
  | nil => rfl
  | cons c l =>
    rw [splitSign]
    split <;> rfl

/-- The end of the input is reported when only white space is left. -/
theorem scanInt_eq_eof_iff : scanInt f = .eof ↔ ∀ c ∈ f, isSpace c := by
  rw [scanInt, ← List.dropWhile_eq_nil_iff]
  dsimp only
  by_cases h : f.dropWhile isSpace = []
  · rw [if_pos h]
    exact iff_of_true rfl h
  · rw [if_neg h]
    refine iff_of_false ?_ h
    split <;> simp

/-- The rest of the input, if there is one. -/
def Scan.rest : Scan → List Char
  | .eof => []
  | .noMatch rest => rest
  | .number _ rest => rest

/-- What a call leaves: the input behind white space, a sign and digits. -/
theorem rest_scanInt (f : List Char) :
    (scanInt f).rest = (splitSign (f.dropWhile isSpace)).2.dropWhile Char.isDigit := by
  rw [scanInt]
  dsimp only
  by_cases h : f.dropWhile isSpace = []
  · rw [if_pos h, h]
    rfl
  · rw [if_neg h]
    split <;> rfl

/-! ## What a call takes -/

/-- A call leaves the end of what it was given. -/
theorem rest_scanInt_suffix (f : List Char) : (scanInt f).rest <:+ f := by
  rw [rest_scanInt]
  refine (List.dropWhile_suffix _).trans (List.IsSuffix.trans ?_ (List.dropWhile_suffix isSpace))
  exact ⟨_, splitSign_append _⟩

/-- **A character that is neither a digit nor a sign nor white space** is never passed. -/
theorem scanInt_stuck (hmem : c ∈ f) (hspace : isSpace c = false) (hsign : isSign c = false)
    (hdigit : c.isDigit = false) : scanInt f ≠ .eof ∧ c ∈ (scanInt f).rest := by
  have hkeep : ∀ {p : Char → Bool} {l : List Char}, p c = false → c ∈ l → c ∈ l.dropWhile p := by
    intro p l hp hc
    rw [← List.takeWhile_append_dropWhile (p := p) (l := l)] at hc
    rcases List.mem_append.mp hc with hc | hc
    · rw [List.mem_takeWhile_imp hc] at hp
      cases hp
    · exact hc
  refine ⟨fun h => ?_, ?_⟩
  · rw [scanInt_eq_eof_iff.mp h c hmem] at hspace
    cases hspace
  · rw [rest_scanInt]
    refine hkeep hdigit ?_
    have hc := hkeep hspace hmem
    rw [← splitSign_append (f.dropWhile isSpace)] at hc
    rcases List.mem_append.mp hc with hc | hc
    · exfalso
      revert hc
      cases f.dropWhile isSpace with
      | nil => exact fun hc => absurd hc List.not_mem_nil
      | cons a l =>
        rw [splitSign]
        split
        · rename_i ha
          intro hc
          rw [List.mem_singleton.mp hc, ha] at hsign
          cases hsign
        · exact fun hc => absurd hc List.not_mem_nil
    · exact hc

/-- **Without such a character** every call takes something, or is at the end. -/
theorem scanInt_progress (hgood : ∀ c ∈ f, isSpace c ∨ isSign c ∨ c.isDigit)
    (hne : scanInt f ≠ .eof) : (scanInt f).rest.length < f.length := by
  have hdrop : f.dropWhile isSpace ≠ [] := fun h =>
    hne (scanInt_eq_eof_iff.mpr (List.dropWhile_eq_nil_iff.mp h))
  obtain ⟨a, l, hal⟩ := List.exists_cons_of_ne_nil hdrop
  have hlen : (a :: l).length ≤ f.length := by
    rw [← hal]
    exact (List.dropWhile_suffix isSpace).length_le
  have ha : isSpace a = false := by
    have hhead := List.head_dropWhile_not isSpace (l := f) (by rw [hal]; exact List.cons_ne_nil a l)
    simpa only [hal, List.head_cons] using hhead
  have hmem : a ∈ f :=
    (List.dropWhile_suffix isSpace).subset (by rw [hal]; exact List.mem_cons_self)
  rw [rest_scanInt, hal, splitSign]
  refine lt_of_lt_of_le (Nat.lt_succ_of_le ?_) hlen
  split
  · exact (List.dropWhile_suffix _).length_le
  · rename_i hsign
    rcases hgood a hmem with h | h | h
    · rw [ha] at h
      cases h
    · exact absurd h hsign
    · rw [List.dropWhile_cons_of_pos h]
      exact (List.dropWhile_suffix _).length_le

/-! ## Numerals -/

theorem splitSign_of_numeral {sign digits t : List Char}
    (hsign : sign = [] ∨ sign = ['+'] ∨ sign = ['-']) (hne : digits ≠ [])
    (hdigits : ∀ c ∈ digits, c.isDigit) :
    splitSign (sign ++ digits ++ t) = (sign, digits ++ t) := by
  rcases hsign with rfl | rfl | rfl
  · obtain ⟨a, l, rfl⟩ := List.exists_cons_of_ne_nil hne
    have ha := isSign_false_of_isDigit (hdigits a List.mem_cons_self)
    show splitSign (a :: (l ++ t)) = _
    rw [splitSign, if_neg (by rw [ha]; decide)]
    rfl
  · rfl
  · rfl

/-- **A numeral** in front of the next white space is read, and taken away. -/
theorem scanInt_numeral {s : List Char} {rest : List (List Char)}
    (hfields : fields isSpace f = s :: rest) (hs : IsNumeral s v) :
    ∃ f', scanInt f = .number v f' ∧ fields isSpace f' = rest := by
  obtain ⟨sign, digits, rfl, hsign, hne, hdigits, rfl⟩ := hs
  have hdrop : f.dropWhile isSpace ≠ [] := by
    intro h
    rw [fields_eq_nil_iff.mpr (List.dropWhile_eq_nil_iff.mp h)] at hfields
    cases hfields
  obtain ⟨a, l, hal⟩ := List.exists_cons_of_ne_nil hdrop
  have ha : ¬ isSpace a := by
    have hhead := List.head_dropWhile_not isSpace (l := f) (by rw [hal]; exact List.cons_ne_nil a l)
    simpa [hal] using hhead
  rw [← fields_dropWhile, hal, fields_of_not_head ha, List.cons.injEq] at hfields
  obtain ⟨hs, hrest⟩ := hfields
  -- what stands behind the numeral is nothing or begins with white space
  set t := (a :: l).dropWhile fun c => !isSpace c with ht
  have hsplit : a :: l = sign ++ digits ++ t := by
    rw [← hs, ht, List.takeWhile_append_dropWhile]
  have hspace : ∀ {c : Char} {u : List Char}, t = c :: u → isSpace c := by
    intro c u htc
    have hhead := List.head_dropWhile_not (fun c => !isSpace c) (l := a :: l)
      (by rw [← ht, htc]; exact List.cons_ne_nil c u)
    simpa [← ht, htc] using hhead
  have hstop : t.takeWhile Char.isDigit = [] ∧ t.dropWhile Char.isDigit = t := by
    rcases htc : t with _ | ⟨c, u⟩
    · exact ⟨rfl, rfl⟩
    · have hd : ¬ c.isDigit := fun h => by
        have hc := hspace htc
        rw [isSpace_false_of_isDigit h] at hc
        cases hc
      exact ⟨List.takeWhile_cons_of_neg hd, List.dropWhile_cons_of_neg hd⟩
  refine ⟨t, ?_, ?_⟩
  · rw [scanInt]
    dsimp only
    rw [hal, if_neg (List.cons_ne_nil a l), hsplit, splitSign_of_numeral hsign hne hdigits,
      List.takeWhile_append_of_pos hdigits, List.dropWhile_append_of_pos hdigits, hstop.1, hstop.2,
      List.append_nil, if_neg hne]
  · rcases htc : t with _ | ⟨c, u⟩
    · rw [← hrest, htc]
      rfl
    · rw [← hrest, htc, fields_cons_of_pos (hspace htc)]
      rfl

/-- Numerals with white space between them. -/
def Numerals (f : List Char) (values : List ℤ) : Prop :=
  List.Forall₂ IsNumeral (fields isSpace f) values

theorem numerals_nil_of_blank (h : ∀ c ∈ f, isSpace c) : Numerals f [] := by
  rw [Numerals, fields_eq_nil_iff.mpr h]
  exact List.Forall₂.nil

theorem Numerals.nil {values : List ℤ} (h : Numerals f values) (heof : scanInt f = .eof) :
    values = [] := by
  rw [Numerals, fields_eq_nil_iff.mpr (scanInt_eq_eof_iff.mp heof),
    List.forall₂_nil_left_iff] at h
  exact h

/-- **The first of the numerals** is the one that is read. -/
theorem Numerals.cons {values : List ℤ} (h : Numerals f values) (hne : scanInt f ≠ .eof) :
    ∃ v rest, values = v :: rest ∧ scanInt f = .number v (scanInt f).rest ∧
      Numerals (scanInt f).rest rest := by
  have hfields : fields isSpace f ≠ [] := fun hnil =>
    hne (scanInt_eq_eof_iff.mpr (fields_eq_nil_iff.mp hnil))
  obtain ⟨s, ss, hs⟩ := List.exists_cons_of_ne_nil hfields
  rw [Numerals, hs, List.forall₂_cons_left_iff] at h
  obtain ⟨v, rest, hnumeral, hrest, rfl⟩ := h
  obtain ⟨f', hscan, hf'⟩ := scanInt_numeral hs hnumeral
  refine ⟨v, rest, rfl, ?_, ?_⟩
  · rw [hscan]
    rfl
  · rw [hscan, Numerals]
    show List.Forall₂ IsNumeral (fields isSpace f') rest
    rw [hf']
    exact hrest

end Lib
end SystemsProjects

import SystemsProjects.Assembly.CycleTool

/-!
# The instructions of a text, and what the cycle count tool makes of them

A line of an assembly text may have labels, then a mnemonic with operands, or a directive, and a
comment.  `statement` is the line behind its labels, without the comment, and `mnemonic` its first
word.

The tool sees pieces between tabs.  An instruction is missed if its mnemonic stands behind a
blank or right behind a label (`missed`), and other pieces are counted by mistake: labels,
operands behind a tab, and mnemonics that only begin like one of the family, such as `leave` or
`movzbl` (`strays`).  The count of a family is right if and only if both happen equally often
(`counts_iff`).  A text in which neither happens is the common case.
-/

namespace SystemsProjects
namespace Assembly
namespace CycleTool

open Lib

/-! ## Lines of assembly -/

/-- A blank, a tab, or the end of a line. -/
def isSpace (c : UInt8) : Bool := c = 32 || c = 9 || c = 10 || c = 13

/-- Words end in front of a blank, a `:` or a `;`. -/
def isSymbol (c : UInt8) : Bool := !isSpace c && c ≠ 58 && c ≠ 59

/-- A line behind its blanks and its labels, of which there are at most `n`. -/
def behindLabels : ℕ → List UInt8 → List UInt8
  | 0, l => l.dropWhile isSpace
  | n + 1, l =>
    let s := l.dropWhile isSpace
    let rest := (s.dropWhile isSymbol).dropWhile isSpace
    if rest.head? = some 58 then behindLabels n rest.tail else s

/-- A line without its comment. -/
def code (l : List UInt8) : List UInt8 := l.takeWhile (· ≠ 35)

/-- The mnemonic and the operands, or the directive. -/
def statement (l : List UInt8) : List UInt8 := behindLabels (code l).length (code l)

/-- The first word of the statement, in lower case. -/
def mnemonic (l : List UInt8) : List UInt8 := ((statement l).takeWhile isSymbol).map tolower

/-- The mnemonics of a family, without a suffix. -/
def bases : Family → List (List UInt8)
  | .mov => [(word ['m', 'o', 'v']).bytes]
  | .lea => [(word ['l', 'e', 'a']).bytes]
  | .add => [(word ['a', 'd', 'd']).bytes]
  | .sub => [(word ['s', 'u', 'b']).bytes]
  | .mul => [(word ['m', 'u', 'l']).bytes, (word ['i', 'm', 'u', 'l']).bytes]
  | .div => [(word ['d', 'i', 'v']).bytes, (word ['i', 'd', 'i', 'v']).bytes]
  | .pop => [(word ['p', 'o', 'p']).bytes]
  | .ret => [(word ['r', 'e', 't']).bytes]
  | .push => [(word ['p', 'u', 's', 'h']).bytes]

/-- The suffixes `b`, `w`, `l`, `q`, or none. -/
def suffixes : List (List UInt8) := [] :: (word ['b', 'w', 'l', 'q']).bytes.map fun c => [c]

/-- The mnemonics of a family, with and without a suffix. -/
def mnemonics (f : Family) : List (List UInt8) :=
  (bases f).flatMap fun base => suffixes.map fun suffix => base ++ suffix

/-- **The line has an instruction of the family.** -/
def IsInstruction (f : Family) (l : List UInt8) : Prop := mnemonic l ∈ mnemonics f

instance (f : Family) (l : List UInt8) : Decidable (IsInstruction f l) :=
  inferInstanceAs (Decidable (_ ∈ _))

/-- The number of instruction lines of the family. -/
def instructionLines (f : Family) (text : List UInt8) : ℕ :=
  (textLines 10 text).countP fun l => IsInstruction f l

/-- **The report is right.** -/
structure CountsInstructions (text : List UInt8) (r : Report) : Prop where
  count : ∀ f, r.count f = instructionLines f text
  total : r.total = (families.map r.count).sum

/-! ## Pieces and instructions -/

/-- The line in front of the statement. -/
def lead (l : List UInt8) : List UInt8 :=
  (code l).take ((code l).length - (statement l).length)

/-- The statement begins a piece. -/
def BeginsPiece (l : List UInt8) : Prop := lead l = [] ∨ (lead l).getLast? = some 9

instance (l : List UInt8) : Decidable (BeginsPiece l) := inferInstanceAs (Decidable (_ ∨ _))

/-- The piece begins with one of the tool's words for the family. -/
def Counted (f : Family) (p : List UInt8) : Prop :=
  ∃ e ∈ words, e.2 = f ∧ BeginsWith p e.1.bytes

instance (f : Family) (p : List UInt8) : Decidable (Counted f p) :=
  inferInstanceAs (Decidable (∃ e ∈ words, _))

/-- The pieces of a part of a line that are counted. -/
def countedIn (f : Family) (part : List (List UInt8)) : ℕ := part.countP fun p => Counted f p

/-- The pieces of a line that are counted and are not the mnemonic of an instruction of the
family. -/
def strays (f : Family) (l : List UInt8) : ℕ :=
  if IsInstruction f l ∧ BeginsPiece l then
    countedIn f (fields isDelimiter (lead l)) + countedIn f (fields isDelimiter (statement l)).tail
  else countedIn f (pieces l)

/-- **The pieces of a text that are counted by mistake.** -/
def strayPieces (f : Family) (text : List UInt8) : ℕ := ((textLines 10 text).map (strays f)).sum

/-- **The instructions that are missed**: the mnemonic does not begin a piece. -/
def missed (f : Family) (text : List UInt8) : ℕ :=
  (textLines 10 text).countP fun l => IsInstruction f l ∧ ¬ BeginsPiece l

/-! ## The statement of a line -/

theorem behindLabels_suffix (n : ℕ) : ∀ l : List UInt8, behindLabels n l <:+ l := by
  induction n with
  | zero => exact fun l => List.dropWhile_suffix _
  | succ n ih =>
    intro l
    have hs : l.dropWhile isSpace <:+ l := List.dropWhile_suffix _
    rw [behindLabels]
    split
    · refine (ih _).trans ((List.tail_suffix _).trans ((List.dropWhile_suffix _).trans ?_))
      exact (List.dropWhile_suffix _).trans hs
    · exact hs

theorem lead_append (l : List UInt8) : lead l ++ statement l = code l := by
  obtain ⟨front, hfront⟩ : statement l <:+ code l := behindLabels_suffix (code l).length (code l)
  have hlen : (code l).length - (statement l).length = front.length := by
    rw [← hfront, List.length_append, Nat.add_sub_cancel]
  have htake : (front ++ statement l).take front.length = front := List.take_left
  rw [lead, hlen]
  rw [hfront] at htake
  rw [htake, hfront]

/-- A part that ends with a delimiter has its own pieces. -/
theorem fields_append_of_delimiter {front : List UInt8}
    (hfront : front = [] ∨ front.getLast? = some 9) (rest : List UInt8) :
    fields isDelimiter (front ++ rest) = fields isDelimiter front ++ fields isDelimiter rest := by
  have hdelimiter : isDelimiter 9 = true := rfl
  rcases hfront with rfl | hlast
  · rw [fields_nil]
    rfl
  · obtain ⟨front, rfl⟩ := List.getLast?_eq_some_iff.mp hlast
    rw [List.append_assoc, List.singleton_append, fields_append_cons hdelimiter,
      fields_append_cons hdelimiter, fields_nil, List.append_nil]

theorem pieces_eq (l : List UInt8) : pieces l = fields isDelimiter (code l) := rfl

/-! ## One line -/

/-- No word of the tool begins with another one. -/
theorem words_incomparable : words.Pairwise fun d e =>
    ¬ d.1.bytes <+: e.1.bytes ∧ ¬ e.1.bytes <+: d.1.bytes := by
  decide

theorem countP_le_one {α : Type} {q : α → Bool} {l : List α}
    (h : l.Pairwise fun a b => ¬ (q a ∧ q b)) : l.countP q ≤ 1 := by
  induction l with
  | nil => exact Nat.zero_le 1
  | cons a l ih =>
    obtain ⟨ha, hl⟩ := List.pairwise_cons.mp h
    by_cases hq : q a
    · have hnone : l.countP q = 0 :=
        List.countP_eq_zero.mpr fun b hb hqb => ha b hb ⟨hq, hqb⟩
      rw [List.countP_cons_of_pos hq, hnone]
    · rw [List.countP_cons_of_neg hq]
      exact ih hl

/-- A piece is counted once for a family, or not at all. -/
theorem count_pieceHits (f : Family) (p : List UInt8) :
    (pieceHits p).count f = if Counted f p then 1 else 0 := by
  have hcount : (pieceHits p).count f =
      words.countP fun e => decide (e.2 = f) && decide (BeginsWith p e.1.bytes) := by
    rw [pieceHits, List.count_eq_countP, List.countP_map, List.countP_filter]
    rfl
  have hle : (words.countP fun e => decide (e.2 = f) && decide (BeginsWith p e.1.bytes)) ≤ 1 := by
    refine countP_le_one (words_incomparable.imp fun {d e} hde hboth => ?_)
    simp only [Bool.and_eq_true, decide_eq_true_eq] at hboth
    exact (List.prefix_or_prefix_of_prefix hboth.1.2 hboth.2.2).elim hde.1 hde.2
  rw [hcount]
  by_cases hcounted : Counted f p
  · obtain ⟨e, he, hef, hbegins⟩ := hcounted
    have hpos : 0 < words.countP fun e =>
        decide (e.2 = f) && decide (BeginsWith p e.1.bytes) := by
      refine List.countP_pos_iff.mpr ⟨e, he, ?_⟩
      rw [decide_eq_true hef, decide_eq_true hbegins]
      rfl
    rw [if_pos ⟨e, he, hef, hbegins⟩]
    omega
  · rw [if_neg hcounted, List.countP_eq_zero]
    intro e he hboth
    simp only [Bool.and_eq_true, decide_eq_true_eq] at hboth
    exact hcounted ⟨e, he, hboth⟩

theorem count_flatMap_pieceHits (f : Family) (part : List (List UInt8)) :
    (part.flatMap pieceHits).count f = countedIn f part := by
  induction part with
  | nil => rfl
  | cons p part ih =>
    rw [List.flatMap_cons, List.count_append, count_pieceHits, ih, countedIn, countedIn,
      List.countP_cons, Nat.add_comm]
    simp only [decide_eq_true_eq]

/-- The tool has a word for every mnemonic of a family. -/
theorem word_of_mnemonic {f : Family} {m : List UInt8} (hm : m ∈ mnemonics f) :
    ∃ e ∈ words, e.2 = f ∧ e.1.bytes <+: m := by
  revert m
  cases f <;> decide

theorem word_ne_nil : ∀ e ∈ words, e.1.bytes ≠ [] := by
  decide

/-- **The piece that begins with the mnemonic is counted.** -/
theorem counted_statement {f : Family} {l : List UInt8} (hl : IsInstruction f l) :
    ∃ p rest, fields isDelimiter (statement l) = p :: rest ∧ Counted f p := by
  obtain ⟨e, he, hef, hprefix⟩ := word_of_mnemonic hl
  have hsymbol : ∀ c ∈ (statement l).takeWhile isSymbol, (!isDelimiter c) = true := by
    intro c hc
    have hc : isSymbol c = true := List.mem_takeWhile_imp hc
    simp only [isSymbol, isSpace, isDelimiter, Bool.and_eq_true, Bool.not_eq_true',
      Bool.or_eq_false_iff, decide_eq_false_iff_not] at hc ⊢
    exact ⟨hc.1.1.1.2, hc.1.1.1.1.2⟩
  have hsplit := List.takeWhile_append_dropWhile (p := isSymbol) (l := statement l)
  rcases hw : (statement l).takeWhile isSymbol with _ | ⟨c, w⟩
  · rw [mnemonic, hw] at hprefix
    exact absurd (List.prefix_nil.mp hprefix) (word_ne_nil e he)
  · rw [mnemonic] at hprefix
    rw [hw] at hsymbol hsplit hprefix
    have hc : ¬ isDelimiter c = true := by
      simpa using hsymbol c List.mem_cons_self
    have hfields := fields_of_not_head (l := w ++ (statement l).dropWhile isSymbol) hc
    rw [← List.cons_append, hsplit] at hfields
    refine ⟨_, _, hfields, e, he, hef, hprefix.trans (List.IsPrefix.map tolower ?_)⟩
    conv_rhs => rw [← hsplit]
    rw [List.takeWhile_append_of_pos hsymbol]
    exact List.prefix_append _ _

/-- **One line**: what is counted and missed, and what is counted by mistake and there to be
counted. -/
theorem line_balance (f : Family) (l : List UInt8) :
    ((pieces l).flatMap pieceHits).count f +
        (if IsInstruction f l ∧ ¬ BeginsPiece l then 1 else 0) =
      strays f l + if IsInstruction f l then 1 else 0 := by
  rw [count_flatMap_pieceHits, strays]
  by_cases hl : IsInstruction f l
  · by_cases hbegins : BeginsPiece l
    · obtain ⟨p, rest, hfields, hp⟩ := counted_statement hl
      rw [if_neg (fun h => h.2 hbegins), if_pos ⟨hl, hbegins⟩, if_pos hl, pieces_eq, ← lead_append,
        fields_append_of_delimiter hbegins, hfields, List.tail_cons, countedIn, countedIn,
        countedIn, List.countP_append, List.countP_cons, if_pos (decide_eq_true hp)]
      omega
    · rw [if_pos ⟨hl, hbegins⟩, if_neg fun h => hbegins h.2, if_pos hl]
  · rw [if_neg fun h => hl h.1, if_neg fun h => hl h.1, if_neg hl]

/-! ## The whole text -/

/-- **Matches and instructions.** -/
theorem text_balance (f : Family) (text : List UInt8) :
    (hits text).count f + missed f text = strayPieces f text + instructionLines f text := by
  rw [hits, missed, strayPieces, instructionLines]
  induction textLines 10 text with
  | nil => rfl
  | cons l ls ih =>
    have hline := line_balance f l
    rw [List.flatMap_cons, List.count_append, List.countP_cons, List.map_cons, List.sum_cons,
      List.countP_cons]
    simp only [decide_eq_true_eq]
    omega

/-- The total is the sum over the families. -/
theorem length_eq_sum (fs : List Family) : fs.length = (families.map fs.count).sum := by
  induction fs with
  | nil => rfl
  | cons f fs ih =>
    rw [List.length_cons, ih]
    cases f <;> simp [families, List.count_cons] <;> omega

/-- **The counts of the tool are right** if and only if in each family as many pieces are counted
by mistake as instructions are missed, and the total fits into an `int`. -/
theorem counts_iff (text : List UInt8) (hnul : 0 ∉ text)
    (hshort : ∀ l ∈ textLines 10 text, l.length < 254) :
    (∃ r, main text = .ok r ∧ CountsInstructions text r) ↔
      (∀ f, strayPieces f text = missed f text) ∧
        (families.map fun f => instructionLines f text).sum < 2 ^ 31 := by
  rw [main_eq hnul hshort]
  constructor
  · rintro ⟨r, hr, hcount, -⟩
    split at hr
    · rename_i hfits
      obtain rfl := Except.ok.inj hr
      refine ⟨fun f => ?_, ?_⟩
      · have hbalance := text_balance f text
        have hf : (hits text).count f = instructionLines f text := hcount f
        omega
      · rw [← funext hcount, ← length_eq_sum]
        exact hfits
    · cases hr
  · rintro ⟨hbalanced, hfits⟩
    have hcount : ∀ f, (hits text).count f = instructionLines f text := fun f => by
      have hbalance := text_balance f text
      have hf := hbalanced f
      omega
    rw [← funext hcount, ← length_eq_sum] at hfits
    rw [if_pos hfits]
    exact ⟨_, rfl, hcount, length_eq_sum _⟩

/-- A procedure, one tab in front of the mnemonics and the operands. -/
def procedure : List UInt8 :=
  ['f', ':', '\t', 'M', 'O', 'V', 'Q', '\t', '$', '1', ',', '%', 'r', 'a', 'x', '#', 'l', 'e', 'a',
    '\n', '\t', 'r', 'e', 't', '\n'].map fun c => c.toNat.toUInt8

theorem counts_procedure : ∃ r, main procedure = .ok r ∧ CountsInstructions procedure r :=
  (counts_iff procedure (by decide) (by decide)).mpr ⟨fun f => by cases f <;> decide, by decide⟩

/-- **Another mnemonic**: `leave` is counted as a `lea`. -/
theorem not_counts_instructions : ∃ text : List UInt8, 0 ∉ text ∧
    (∀ l ∈ textLines 10 text, l.length < 254) ∧
      ¬ ∃ r, main text = .ok r ∧ CountsInstructions text r := by
  refine ⟨['\t', 'l', 'e', 'a', 'v', 'e', '\n'].map fun c => c.toNat.toUInt8, by decide,
    by decide, fun ⟨r, hr, hcounts⟩ => ?_⟩
  have hlea := hcounts.count .lea
  rw [main_eq (by decide) (by decide), if_pos (by decide)] at hr
  rw [← Except.ok.inj hr] at hlea
  revert hlea
  decide

end CycleTool
end Assembly
end SystemsProjects

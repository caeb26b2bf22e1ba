import SystemsProjects.Shell.Session
import SystemsProjects.Lib.Buffers
import SystemsProjects.Lib.Loop
import SystemsProjects.Lib.TextLines

/-!
# A command line in its buffers

`main` takes a line to pieces in place.  `strtok(inputs, "|")` finds the first command, which is
copied to `first`; the next call finds the second one, which is copied to `second`; and
`tokenize` takes each copy to words, whose places it stores in an array of pointers.

All calls of `strtok` share one remembered place.  The calls on `inputs` are over when the ones on
`first` begin, and so no token is lost.  The words of `first` stay where they are when those of
`second` are looked for, because `strtok` writes only behind the place where it begins
(`Stored.kept`), and into one buffer.

`Session` works with strings instead of buffers.  The words here are the words there
(`words_eq_tokens`).
-/

namespace SystemsProjects
namespace Shell
namespace Splitting

open Lib Buffers

/-! ## The code -/

/-- The character arrays of `main`. -/
inductive Buffer where
  | inputs | first | second
  deriving DecidableEq, Repr

/-- The arrays of pointers. -/
inductive Args where
  | args1 | args2
  deriving DecidableEq, Repr

/-- All arrays have `BUFFER_SIZE` places, whose contents are arbitrary at first. -/
structure Arrays where
  chars : Buffers Buffer
  args : Args → ℕ → Option (Pointer Buffer)

/-- Every buffer has `bufferSize` characters. -/
def sizes (_ : Buffer) : ℕ := bufferSize

/-- `args[i] = split` -/
def Arrays.setArg (w : Arrays) (a : Args) (i : ℕ) (split : Option (Pointer Buffer)) :
    Except BufferFault Arrays :=
  if i < bufferSize then
    pure { w with args := Function.update w.args a (Function.update (w.args a) i split) }
  else .error .outOfBounds

/-- The body of the loop of `tokenize`, on `i` and `split`. -/
def tokenizeBody (a : Args) : Arrays × ℕ × Option (Pointer Buffer) →
    Except BufferFault (Arrays × ℕ × Option (Pointer Buffer) ⊕ Arrays × ℕ)
  | (w, i, none) => pure (.inr (w, i))
  | (w, i, some split) => do
    let w ← w.setArg a i (some split)
    let (chars, split) ← strtok sizes w.chars none isBlank
    pure (.inl ({ w with chars := chars }, i + 1, split))

/-- The words of a buffer into an array of pointers, and NULL behind them. -/
def tokenize (w : Arrays) (input : Buffer) (a : Args) : Except BufferFault Arrays := do
  let (chars, split) ← strtok sizes w.chars (some ⟨input, 0⟩) isBlank
  let (w, i) ←
    loop .diverges (tokenizeBody a) (bufferSize + 1) ({ w with chars := chars }, 0, split)
  w.setArg a i none

/-- `main` from `fgets` to `tokenize(first, args1)`, and `foundPipe`. -/
def splitLine (stdin : List UInt8) (w : Arrays) : Except BufferFault (Arrays × Bool) := do
  let chars ← match fgets 10 bufferSize stdin with
    | none => pure w.chars
    | some (line, _) => w.chars.store sizes .inputs line
  let (chars, split) ← strtok sizes chars (some ⟨.inputs, 0⟩) isPipe
  let chars ← chars.strcpy sizes .first split
  let (chars, split) ← strtok sizes chars none isPipe
  let chars ← match split with
    | none => pure chars
    | some split => chars.strcpy sizes .second (some split)
  let w ← tokenize { w with chars := chars } .first .args1
  pure (w, split.isSome)

/-! ## What is asked of it -/

/-- **The words in an array of pointers**: their places, and a NULL behind the last one. -/
structure ArgsAre (w : Arrays) (a : Args) (input : Buffer) (ws : List (List UInt8)) : Prop where
  room : ws.length < bufferSize
  word : ∀ i (hi : i < ws.length), ∃ k, w.args a i = some ⟨input, k⟩ ∧
    PointsTo sizes w.chars ⟨input, k⟩ ws[i]
  null : w.args a ws.length = none

/-- The line in front of the pipe, or all of it. -/
def side1 (l : List UInt8) : List UInt8 := l.takeWhile (!isPipe ·)

/-- The line behind the pipe. -/
def side2 (l : List UInt8) : List UInt8 := (l.dropWhile (!isPipe ·)).tail

/-- A line of the grammar, with one pipe at most. -/
structure Command (l : List UInt8) : Prop where
  short : l.length ≤ 78
  noNewline : 10 ∉ l
  noNul : 0 ∉ l
  onePipe : l.countP isPipe ≤ 1
  /-- each side has a word -/
  word1 : fields isBlank (side1 l) ≠ []
  word2 : 124 ∈ l → fields isBlank (side2 l) ≠ []

/-! ## The words of one buffer -/

variable {w w' : Arrays} {a : Args} {input : Buffer} {ds : List (List UInt8)} {k : ℕ}
  {text : List UInt8}

/-- The words that have been found, all in front of place `k`. -/
def Stored (w : Arrays) (a : Args) (input : Buffer) (ds : List (List UInt8)) (k : ℕ) : Prop :=
  ∀ i (hi : i < ds.length), ∃ k', w.args a i = some ⟨input, k'⟩ ∧
    PointsTo sizes w.chars ⟨input, k'⟩ ds[i] ∧ k' + ds[i].length ≤ k

/-- **What is written later** does not touch the words. -/
theorem Stored.kept (h : Stored w a input ds k) (hargs : w'.args a = w.args a)
    (hkept : ∀ x, x ≤ k → w'.chars.bytes input x = w.chars.bytes input x) :
    Stored w' a input ds k := by
  intro i hi
  obtain ⟨k', harg, hpoints, hle⟩ := h i hi
  refine ⟨k', (congrFun hargs i).trans harg, hpoints.congr fun x hx => ?_, hle⟩
  exact hkept x (hx.trans hle)

/-- The state between two rounds of the loop, with the words that are still to be stored. -/
inductive Scanning (a : Args) (input : Buffer) (all : List (List UInt8)) :
    List (List UInt8) → Arrays × ℕ × Option (Pointer Buffer) → Prop where
  | finished {w : Arrays} {k : ℕ} (hstored : Stored w a input all k) :
      Scanning a input all [] (w, all.length, none)
  | token {w : Arrays} {ds rest : List (List UInt8)} {t text : List UInt8} {k k' : ℕ}
      (hall : ds ++ t :: rest = all) (hstored : Stored w a input ds k)
      (htoken : PointsTo sizes w.chars ⟨input, k'⟩ t) (hle : k' + t.length ≤ k)
      (hsaved : w.chars.saved = some ⟨input, k⟩)
      (hpoints : PointsTo sizes w.chars ⟨input, k⟩ text) (hrest : fields isBlank text = rest) :
      Scanning a input all (t :: rest) (w, ds.length, some ⟨input, k'⟩)

/-- **One call of `strtok`**, the first one or a later one. -/
theorem Stored.next (h : Stored w a input ds k) {s : Option (Pointer Buffer)}
    (hp : (s <|> w.chars.saved) = some ⟨input, k⟩)
    (hpoints : PointsTo sizes w.chars ⟨input, k⟩ text) :
    ∃ chars split, strtok sizes w.chars s isBlank = .ok (chars, split) ∧
      Scanning a input (ds ++ fields isBlank text) (fields isBlank text)
        ({ w with chars := chars }, ds.length, split) := by
  rcases hfields : fields isBlank text with _ | ⟨t, rest⟩
  · obtain ⟨k', hcall⟩ := strtok_end hp hpoints hfields
    have hstored : Stored { w with chars := { w.chars with saved := some ⟨input, k'⟩ } } a input
        ds k := h.kept rfl fun _ _ => rfl
    rw [List.append_nil]
    exact ⟨_, _, hcall, Scanning.finished hstored⟩
  · obtain ⟨chars, start, hcall, htaken⟩ := strtok_token hp hpoints hfields
    obtain ⟨k', text', hsaved, hle, hpoints', hrest⟩ := htaken.saved
    have hkk : k ≤ k' := (htaken.after.trans (Nat.le_add_right _ _)).trans hle
    have hstored : Stored { w with chars := chars } a input ds k := h.kept rfl htaken.kept
    refine ⟨chars, _, hcall, Scanning.token rfl (fun i hi => ?_) htaken.token hle hsaved hpoints'
      hrest⟩
    obtain ⟨j, harg, hj, hjle⟩ := hstored i hi
    exact ⟨j, harg, hj, hjle.trans hkk⟩

/-- **One round of the loop.** -/
theorem Scanning.round {all rest : List (List UInt8)} {t : List UInt8}
    {s : Arrays × ℕ × Option (Pointer Buffer)} (hroom : all.length < bufferSize)
    (h : Scanning a input all (t :: rest) s) :
    ∃ s', tokenizeBody a s = .ok (.inl s') ∧ Scanning a input all rest s' := by
  cases h with
  | @token w ds _ _ text k k' hall hstored htoken hle hsaved hpoints hrest =>
    have hi : ds.length < bufferSize := by
      rw [← hall, List.length_append, List.length_cons] at hroom
      omega
    obtain ⟨w₁, hw₁⟩ : ∃ w₁, w₁ = { w with
        args := Function.update w.args a (Function.update (w.args a) ds.length
          (some ⟨input, k'⟩)) } := ⟨_, rfl⟩
    have hset : w.setArg a ds.length (some ⟨input, k'⟩) = .ok w₁ := by
      rw [hw₁]
      exact if_pos hi
    have hchars : w₁.chars = w.chars := by rw [hw₁]
    have hargs : w₁.args a = Function.update (w.args a) ds.length (some ⟨input, k'⟩) := by
      rw [hw₁]
      exact Function.update_self _ _ _
    have hstored₁ : Stored w₁ a input (ds ++ [t]) k := by
      intro i hi
      rw [hargs, hchars]
      by_cases hlast : i = ds.length
      · subst hlast
        refine ⟨k', Function.update_self _ _ _, ?_⟩
        rw [List.getElem_concat_length rfl]
        exact ⟨htoken, hle⟩
      · rw [List.length_append, List.length_singleton] at hi
        rw [Function.update_of_ne hlast, List.getElem_append_left (by omega)]
        exact hstored i (by omega)
    rw [← hchars] at hsaved hpoints
    obtain ⟨chars, split, hcall, hnext⟩ := hstored₁.next (s := none) hsaved hpoints
    rw [hrest, List.append_assoc, List.singleton_append, hall, List.length_append,
      List.length_singleton] at hnext
    refine ⟨_, ?_, hnext⟩
    rw [tokenizeBody, hset, ok_bind, hcall, ok_bind]
    rfl

/-- **`tokenize` stores the words** of the string in the buffer. -/
theorem tokenize_eq (a : Args) (hpoints : PointsTo sizes w.chars ⟨input, 0⟩ text) :
    ∃ w', tokenize w input a = .ok w' ∧ ArgsAre w' a input (fields isBlank text) := by
  have hroom : (fields isBlank text).length < bufferSize := by
    have hinside := hpoints.inside
    have hlen := length_fields_le isBlank text.length text (Nat.le_refl _)
    simp only [sizes] at hinside
    omega
  have hempty : Stored w a input [] 0 := fun i hi => absurd hi (Nat.not_lt_zero i)
  obtain ⟨chars, split, hcall, hstart⟩ :=
    hempty.next (s := some ⟨input, 0⟩) rfl hpoints
  rw [List.nil_append] at hstart
  obtain ⟨⟨w₁, i⟩, hloop, hi, k, hstored⟩ : ∃ r, loop .diverges (tokenizeBody a) (bufferSize + 1)
      ({ w with chars := chars }, 0, split) = .ok r ∧ r.2 = (fields isBlank text).length ∧
        ∃ k, Stored r.1 a input (fields isBlank text) k := by
    refine loop_spec (I := Scanning a input (fields isBlank text)) (fun s hs => ?_)
      (fun t rest s hs => Or.inl (hs.round hroom)) hstart (Nat.lt_succ_of_lt hroom)
    cases hs with
    | finished hstored => exact ⟨_, rfl, rfl, _, hstored⟩
  dsimp only at hi hstored
  refine ⟨{ w₁ with args := Function.update w₁.args a (Function.update (w₁.args a) i none) }, ?_,
    hroom, fun j hj => ?_, ?_⟩
  · rw [tokenize, hcall, ok_bind]
    dsimp only
    rw [hloop, ok_bind]
    exact if_pos (hi ▸ hroom)
  · obtain ⟨k', harg, hword, -⟩ := hstored j hj
    refine ⟨k', ?_, hword⟩
    dsimp only
    rw [Function.update_self, Function.update_of_ne (by omega)]
    exact harg
  · dsimp only
    rw [Function.update_self, hi, Function.update_self]

/-! ## The other arrays -/

/-- Only the buffer `input` and the array `a` have been written. -/
structure OthersSame (input : Buffer) (a : Args) (w w' : Arrays) : Prop where
  bytes : ∀ b, b ≠ input → w'.chars.bytes b = w.chars.bytes b
  args : ∀ a', a' ≠ a → w'.args a' = w.args a'

theorem OthersSame.trans {w'' : Arrays} (h : OthersSame input a w w')
    (h' : OthersSame input a w' w'') : OthersSame input a w w'' where
  bytes b hb := (h'.bytes b hb).trans (h.bytes b hb)
  args a' ha := (h'.args a' ha).trans (h.args a' ha)

theorem setArg_same {i : ℕ} {split : Option (Pointer Buffer)}
    (hcall : w.setArg a i split = .ok w') :
    w'.chars = w.chars ∧ OthersSame input a w w' := by
  rw [Arrays.setArg] at hcall
  split at hcall
  · rw [← Except.ok.inj hcall]
    exact ⟨rfl, fun _ _ => rfl, fun a' ha => Function.update_of_ne ha _ _⟩
  · cases hcall

/-- `strtok` in the buffer `input`. -/
theorem strtok_same {s r : Option (Pointer Buffer)} {chars : Buffers Buffer}
    (hp : (s <|> w.chars.saved) = some ⟨input, k⟩)
    (hcall : strtok sizes w.chars s isBlank = .ok (chars, r)) :
    (∃ k', chars.saved = some ⟨input, k'⟩) ∧ OthersSame input a w { w with chars := chars } := by
  obtain ⟨hsaved, hbytes⟩ := strtok_frame hp hcall
  exact ⟨hsaved, hbytes, fun _ _ => rfl⟩

/-- One round of the loop. -/
theorem tokenizeBody_same {s s' : Arrays × ℕ × Option (Pointer Buffer)}
    (hsaved : ∃ k, s.1.chars.saved = some ⟨input, k⟩)
    (hbody : tokenizeBody a s = .ok (.inl s')) :
    (∃ k, s'.1.chars.saved = some ⟨input, k⟩) ∧ OthersSame input a s.1 s'.1 := by
  obtain ⟨w, i, split⟩ := s
  cases split with
  | none => cases hbody
  | some split =>
    obtain ⟨w₁, hset, hbody⟩ := bind_eq_ok.mp hbody
    obtain ⟨⟨chars, split'⟩, htok, hbody⟩ := bind_eq_ok.mp hbody
    obtain ⟨hchars, hsame⟩ : w₁.chars = w.chars ∧ OthersSame input a w w₁ := setArg_same hset
    obtain ⟨k, hk⟩ := hsaved
    obtain ⟨hsaved', hsame'⟩ := strtok_same (a := a) (hchars.symm ▸ hk) htok
    rw [← Sum.inl.inj (Except.ok.inj hbody)]
    exact ⟨hsaved', hsame.trans hsame'⟩

/-- **`tokenize` writes to its two arrays only**, whatever is in the buffer. -/
theorem tokenize_same (hcall : tokenize w input a = .ok w') : OthersSame input a w w' := by
  obtain ⟨⟨chars, split⟩, hstart, hcall⟩ := bind_eq_ok.mp hcall
  obtain ⟨⟨w₁, i⟩, hloop, hset⟩ := bind_eq_ok.mp hcall
  obtain ⟨hsaved, hsame⟩ := strtok_same (a := a) (k := 0) rfl hstart
  have hrun : OthersSame input a w w₁ := by
    refine loop_preserves (I := fun s : Arrays × ℕ × Option (Pointer Buffer) =>
        (∃ k, s.1.chars.saved = some ⟨input, k⟩) ∧ OthersSame input a w s.1)
      (Q := fun r : Arrays × ℕ => OthersSame input a w r.1) ?_ ?_ ⟨hsaved, hsame⟩ hloop
    · rintro s s' ⟨hsaved, hsame⟩ hbody
      obtain ⟨hsaved', hsame'⟩ := tokenizeBody_same hsaved hbody
      exact ⟨hsaved', hsame.trans hsame'⟩
    · rintro ⟨w₀, i, split⟩ r ⟨-, hsame⟩ hbody
      cases split with
      | none =>
        rw [← Sum.inr.inj (Except.ok.inj hbody)]
        exact hsame
      | some split =>
        obtain ⟨w₂, -, hbody⟩ := bind_eq_ok.mp hbody
        obtain ⟨⟨chars, split'⟩, -, hbody⟩ := bind_eq_ok.mp hbody
        cases Except.ok.inj hbody
  exact hrun.trans (setArg_same hset).2

/-- The words of one array stay when `tokenize` works on other arrays. -/
theorem ArgsAre.kept {ws : List (List UInt8)} {b : Buffer} {a' : Args}
    (h : ArgsAre w a input ws) (hb : input ≠ b) (ha : a ≠ a')
    (hcall : tokenize w b a' = .ok w') : ArgsAre w' a input ws := by
  have hsame := tokenize_same hcall
  refine ⟨h.room, fun i hi => ?_, (congrFun (hsame.args a ha) _).trans h.null⟩
  obtain ⟨k, harg, hword⟩ := h.word i hi
  exact ⟨k, (congrFun (hsame.args a ha) i).trans harg,
    hword.congr fun x _ => congrFun (hsame.bytes input hb) x⟩

/-! ## The line -/

theorem fields_newline (l : List UInt8) : fields isBlank (l ++ [10]) = fields isBlank l := by
  rw [fields_append_cons (show isBlank 10 = true from rfl), fields_nil, List.append_nil]

namespace Command

variable {l : List UInt8}

/-- **The sides of the pipe**, as `strtok` finds them. -/
theorem sides (h : Command l) :
    (124 ∉ l ∧ side1 l = l ∧ fields isPipe (l ++ [10]) = [side1 l ++ [10]]) ∨
      (124 ∈ l ∧ fields isPipe (l ++ [10]) = [side1 l, side2 l ++ [10]]) := by
  have hnewline : ∀ {s : List UInt8}, (∀ c ∈ s, isPipe c = false) →
      fields isPipe (s ++ [10]) = [s ++ [10]] := fun {s} hs => by
    refine fields_of_forall_not (fun c hc => ?_)
      (List.append_ne_nil_of_right_ne_nil s (List.cons_ne_nil 10 []))
    rcases List.mem_append.mp hc with hc | hc
    · exact hs c hc
    · rw [List.mem_singleton.mp hc]
      rfl
  by_cases hpipe : 124 ∈ l
  · refine Or.inr ⟨hpipe, ?_⟩
    obtain ⟨s₁, s₂, rfl, hs₁⟩ := List.eq_append_cons_of_mem hpipe
    have hfront : ∀ c ∈ s₁, isPipe c = false := fun c hc =>
      decide_eq_false fun heq => hs₁ (heq ▸ hc)
    have hfront' : ∀ c ∈ s₁, (!isPipe c) = true := fun c hc => by rw [hfront c hc]; rfl
    have hside1 : side1 (s₁ ++ 124 :: s₂) = s₁ := by
      rw [side1, List.takeWhile_append_of_pos hfront', List.takeWhile_cons_of_neg (by decide),
        List.append_nil]
    have hside2 : side2 (s₁ ++ 124 :: s₂) = s₂ := by
      rw [side2, List.dropWhile_append_of_pos hfront', List.dropWhile_cons_of_neg (by decide),
        List.tail_cons]
    have hback : ∀ c ∈ s₂, isPipe c = false := by
      have hone := h.onePipe
      rw [List.countP_append, List.countP_cons_of_pos (show isPipe 124 = true from rfl)] at hone
      have hzero : s₂.countP isPipe = 0 := by omega
      intro c hc
      simpa using List.countP_eq_zero.mp hzero c hc
    have hne : s₁ ≠ [] := by
      rintro rfl
      exact h.word1 (by rw [hside1, fields_nil])
    rw [hside1, hside2, List.append_assoc, List.cons_append,
      fields_append_cons (show isPipe 124 = true from rfl), fields_of_forall_not hfront hne,
      hnewline hback, List.singleton_append]
  · have hall : ∀ c ∈ l, isPipe c = false := fun c hc =>
      decide_eq_false fun heq => hpipe (heq ▸ hc)
    have hside1 : side1 l = l :=
      List.takeWhile_eq_self_iff.mpr fun c hc => by rw [hall c hc]; rfl
    exact Or.inl ⟨hpipe, hside1, by rw [hside1]; exact hnewline hall⟩

end Command

/-- **A command is copied**: the next token of `inputs`, to another buffer. -/
theorem copy_command {m : Buffers Buffer} {s : Option (Pointer Buffer)} {tok : List UInt8}
    {toks : List (List UInt8)} {b : Buffer} (hb : .inputs ≠ b)
    (hp : (s <|> m.saved) = some ⟨.inputs, k⟩)
    (hpoints : PointsTo sizes m ⟨.inputs, k⟩ text) (hfields : fields isPipe text = tok :: toks) :
    ∃ m₁ split m', strtok sizes m s isPipe = .ok (m₁, some split) ∧
      m₁.strcpy sizes b (some split) = .ok m' ∧ PointsTo sizes m' ⟨b, 0⟩ tok ∧
      (∃ k' text', m'.saved = some ⟨.inputs, k'⟩ ∧ PointsTo sizes m' ⟨.inputs, k'⟩ text' ∧
        fields isPipe text' = toks) ∧
      ∀ b', b' ≠ .inputs → b' ≠ b → m'.bytes b' = m.bytes b' := by
  obtain ⟨m₁, start, hcall, htaken⟩ := strtok_token hp hpoints hfields
  obtain ⟨k', text', hsaved, -, hpoints', htoks⟩ := htaken.saved
  have hroom : tok.length < sizes b := by
    have hinside := htaken.token.inside
    simp only [sizes] at hinside ⊢
    omega
  obtain ⟨m', hstore, hcopy, hsaved', hother⟩ : ∃ m', m₁.store sizes b tok = .ok m' ∧
      PointsTo sizes m' ⟨b, 0⟩ tok ∧ m'.saved = m₁.saved ∧
      ∀ b', b' ≠ b → m'.bytes b' = m₁.bytes b' :=
    store_eq htaken.token.hasString.zero_notMem hroom
  refine ⟨m₁, _, m', hcall, (strcpy_eq htaken.token).trans hstore, hcopy,
    ⟨k', text', hsaved'.trans hsaved, ?_, htoks⟩, fun b' hinputs hb' => ?_⟩
  · exact hpoints'.congr fun x _ => congrFun (hother .inputs hb) x
  · exact (hother b' hb').trans ((strtok_frame hp hcall).2 b' hinputs)

/-- **The line is taken to pieces.** -/
structure SplitsLine (l : List UInt8) (w : Arrays) (foundPipe : Bool) : Prop where
  pipe : foundPipe = true ↔ 124 ∈ l
  words1 : ArgsAre w .args1 .first (fields isBlank (side1 l))
  /-- `tokenize(second, args2)` returns if there is a pipe -/
  words2 : 124 ∈ l → ∃ w', tokenize w .second .args2 = .ok w' ∧
    ArgsAre w' .args2 .second (fields isBlank (side2 l))
  /-- whatever is in `second`, this call leaves the words of `first` alone -/
  kept : ∀ w', tokenize w .second .args2 = .ok w' →
    ArgsAre w' .args1 .first (fields isBlank (side1 l))

/-- **A command line comes to pieces as the grammar says**, for any contents of the arrays and any
place that `strtok` remembers from before. -/
theorem splits_line (l rest : List UInt8) (w : Arrays) (h : Command l) :
    ∃ w' foundPipe, splitLine (l ++ 10 :: rest) w = .ok (w', foundPipe) ∧
      SplitsLine l w' foundPipe := by
  have hshort := h.short
  have hnul : 0 ∉ l ++ [10] := by
    rw [List.mem_append, List.mem_singleton, not_or]
    exact ⟨h.noNul, by decide⟩
  have hroom : (l ++ [10]).length < sizes .inputs := by
    rw [List.length_append, List.length_singleton]
    exact Nat.lt_of_le_of_lt (Nat.succ_le_succ hshort) (by decide)
  have hread : fgets 10 bufferSize (l ++ 10 :: rest) = some (l ++ [10], rest) :=
    fgets_line h.noNewline (Nat.lt_of_le_of_lt hshort (by decide))
  obtain ⟨m₀, hstore, hinputs, -, -⟩ : ∃ m₀, w.chars.store sizes .inputs (l ++ [10]) = .ok m₀ ∧
      PointsTo sizes m₀ ⟨.inputs, 0⟩ (l ++ [10]) ∧ m₀.saved = w.chars.saved ∧
      ∀ b, b ≠ .inputs → m₀.bytes b = w.chars.bytes b := store_eq hnul hroom
  have hstart : (some ⟨.inputs, 0⟩ <|> m₀.saved) = some (⟨.inputs, 0⟩ : Pointer Buffer) := rfl
  rcases h.sides with ⟨hpipe, hside, hfields⟩ | ⟨hpipe, hfields⟩
  · obtain ⟨m₁, split, m₂, hcall, hcopy, hfirst, ⟨k, text, hsaved, hpoints, hend⟩, -⟩ :=
      copy_command (b := .first) (by decide) hstart hinputs hfields
    obtain ⟨k', hcall'⟩ := strtok_end (s := none) hsaved hpoints hend
    have hfirst' : PointsTo sizes { m₂ with saved := some ⟨.inputs, k'⟩ } ⟨.first, 0⟩
        (side1 l ++ [10]) := hfirst.congr fun _ _ => rfl
    obtain ⟨w', htokenize, hargs⟩ : ∃ w',
        tokenize { w with chars := { m₂ with saved := some ⟨.inputs, k'⟩ } } .first .args1 =
          .ok w' ∧ ArgsAre w' .args1 .first (fields isBlank (side1 l ++ [10])) :=
      tokenize_eq .args1 hfirst'
    rw [fields_newline] at hargs
    refine ⟨w', false, ?_,
      ⟨⟨fun hfound => absurd hfound (by decide), fun hmem => absurd hmem hpipe⟩, hargs,
      fun hmem => absurd hmem hpipe, fun w'' => hargs.kept (by decide) (by decide)⟩⟩
    rw [splitLine, hread]
    dsimp only
    rw [hstore, ok_bind, hcall, ok_bind, hcopy, ok_bind, hcall', ok_bind]
    dsimp only
    rw [pure_eq_ok, ok_bind, htokenize, ok_bind]
    rfl
  · obtain ⟨m₁, split, m₂, hcall, hcopy, hfirst, ⟨k, text, hsaved, hpoints, hlast⟩, -⟩ :=
      copy_command (b := .first) (by decide) hstart hinputs hfields
    obtain ⟨m₃, split', m₄, hcall', hcopy', hsecond, -, hother⟩ :=
      copy_command (s := none) (b := .second) (by decide) hsaved hpoints hlast
    have hfirst' : PointsTo sizes m₄ ⟨.first, 0⟩ (side1 l) :=
      hfirst.congr fun x _ => congrFun (hother .first (by decide) (by decide)) x
    obtain ⟨w', htokenize, hargs⟩ : ∃ w', tokenize { w with chars := m₄ } .first .args1 = .ok w' ∧
        ArgsAre w' .args1 .first (fields isBlank (side1 l)) := tokenize_eq .args1 hfirst'
    have hsecond' : PointsTo sizes w'.chars ⟨.second, 0⟩ (side2 l ++ [10]) :=
      hsecond.congr fun x _ => congrFun ((tokenize_same htokenize).bytes .second (by decide)) x
    obtain ⟨w'', htokenize', hargs'⟩ := tokenize_eq .args2 hsecond'
    rw [fields_newline] at hargs'
    refine ⟨w', true, ?_, ⟨⟨fun _ => hpipe, fun _ => rfl⟩, hargs,
      fun _ => ⟨w'', htokenize', hargs'⟩, fun w'' => hargs.kept (by decide) (by decide)⟩⟩
    rw [splitLine, hread]
    dsimp only
    rw [hstore, ok_bind, hcall, ok_bind, hcopy, ok_bind, hcall', ok_bind]
    dsimp only
    rw [hcopy', ok_bind, htokenize, ok_bind]
    rfl

/-- The session's `strtok` on the same line finds the same words. -/
theorem words_eq_tokens {l : List UInt8} (h : Command l) {inputs : CString}
    (hinputs : inputs.bytes = l ++ [10]) :
    ∃ split saved, Lib.strtok isPipe inputs = some (split, saved) ∧
      (tokens isBlank split).map CString.bytes = fields isBlank (side1 l) ∧
      (124 ∉ l → Lib.strtok isPipe saved = none) ∧
      (124 ∈ l → ∃ split' rest, Lib.strtok isPipe saved = some (split', rest) ∧
        (tokens isBlank split').map CString.bytes = fields isBlank (side2 l)) := by
  have hsides := h.sides
  rw [← hinputs] at hsides
  rcases hfirst : Lib.strtok isPipe inputs with _ | ⟨split, saved⟩
  · rw [strtok_eq_none_iff] at hfirst
    rcases hsides with ⟨-, -, hfields⟩ | ⟨-, hfields⟩
    · rw [hfirst] at hfields
      cases hfields
    · rw [hfirst] at hfields
      cases hfields
  · have hnext := strtok_fields hfirst
    refine ⟨split, saved, rfl, ?_⟩
    rw [tokens_bytes]
    rcases hsides with ⟨hpipe, -, hfields⟩ | ⟨hpipe, hfields⟩
    · rw [hnext, List.cons.injEq] at hfields
      rw [hfields.1, fields_newline]
      exact ⟨rfl, fun _ => strtok_eq_none_iff.mpr hfields.2, fun hmem => absurd hmem hpipe⟩
    · rw [hnext, List.cons.injEq] at hfields
      rw [hfields.1]
      refine ⟨rfl, fun hmem => absurd hpipe hmem, fun _ => ?_⟩
      rcases hsecond : Lib.strtok isPipe saved with _ | ⟨split', rest⟩
      · rw [strtok_eq_none_iff, hfields.2] at hsecond
        cases hsecond
      · have hlast := strtok_fields hsecond
        rw [hfields.2, List.cons.injEq] at hlast
        refine ⟨split', rest, rfl, ?_⟩
        rw [tokens_bytes, ← hlast.1, fields_newline]

/-- `ls -l| wc` -/
theorem splits_line_wc : ∃ w foundPipe,
    splitLine ([108, 115, 32, 45, 108, 124, 32, 119, 99] ++ 10 :: [])
        ⟨⟨fun _ _ => 255, none⟩, fun _ _ => none⟩ = .ok (w, foundPipe) ∧
      SplitsLine [108, 115, 32, 45, 108, 124, 32, 119, 99] w foundPipe :=
  splits_line _ [] _ ⟨by decide, by decide, by decide, by decide, by decide, by decide⟩

end Splitting
end Shell
end SystemsProjects

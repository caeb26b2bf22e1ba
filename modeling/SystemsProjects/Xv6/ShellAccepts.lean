import SystemsProjects.Lib.Fields
import SystemsProjects.Lib.Yields
import SystemsProjects.Xv6.ShellParser

/-!
# What the shell's parser accepts

Every line is either turned into a command or refused with one of the messages of the source;
the parser always comes to an end, and never to the panic of `parseblock`.  A command that it
accepts is well formed: fewer than `MAXARGS` arguments in each simple command, and the modes and
descriptors of `<`, `>` and `>>`.  Its words are the maximal runs of ordinary characters of the
line, each one once.

The last point is about the line as it is when `nulterminate` has been through the tree.  The
characters that it overwrites stand behind words, so none of them is within a word, and each
word ends where it should.

`Parsed` is what holds between the tree that a function has built and what is left of the line:
together they have the words that they had before.  Each function is charged with a fuel that
is linear in what is left, and every call for a rest of the same length goes one level down in
the grammar.
-/

namespace SystemsProjects
namespace Xv6
namespace Sh

open Lib

/-! ## Well-formed commands -/

/-- A nonempty run of ordinary characters. -/
def IsWord (w : List Char) : Prop := w ≠ [] ∧ ∀ c ∈ w, ordinary c = true ∧ c ≠ nul

/-- What the parser makes of `<`, and of `>` and `>>`. -/
def IsMode (mode fd : ℕ) : Prop := mode = rdonly ∧ fd = 0 ∨ mode = wronlyCreate ∧ fd = 1

namespace Cmd

variable {V W : Type}

/-- The shape of a command: the numbers of arguments, the modes and the descriptors. -/
def WellFormed : Cmd W → Prop
  | exec argv => argv.length < maxArgs
  | redir cmd _ mode fd => cmd.WellFormed ∧ IsMode mode fd
  | pipe left right => left.WellFormed ∧ right.WellFormed
  | list left right => left.WellFormed ∧ right.WellFormed
  | back cmd => cmd.WellFormed

/-- A simple command with `n` arguments, inside of redirections. -/
def Simple (n : ℕ) : Cmd W → Prop
  | exec argv => argv.length = n
  | redir cmd _ mode fd => cmd.Simple n ∧ IsMode mode fd
  | _ => False

theorem Simple.wellFormed {n : ℕ} (hn : n < maxArgs) :
    ∀ {cmd : Cmd W}, cmd.Simple n → cmd.WellFormed := by
  intro cmd
  induction cmd with
  | exec argv => exact fun h => lt_of_eq_of_lt h hn
  | redir cmd file mode fd ih => exact fun h => ⟨ih h.1, h.2⟩
  | pipe left right => exact False.elim
  | list left right => exact False.elim
  | back cmd => exact False.elim

theorem Simple.addArg {n : ℕ} (w : W) :
    ∀ {cmd : Cmd W}, cmd.Simple n → (cmd.addArg w).Simple (n + 1) := by
  intro cmd
  induction cmd with
  | exec argv =>
    intro h
    change (argv ++ [w]).length = n + 1
    rw [List.length_append, List.length_singleton, show argv.length = n from h]
  | redir cmd file mode fd ih => exact fun h => ⟨ih h.1, h.2⟩
  | pipe left right => exact False.elim
  | list left right => exact False.elim
  | back cmd => exact False.elim

theorem Simple.words_addArg {n : ℕ} (w : W) :
    ∀ {cmd : Cmd W}, cmd.Simple n → (cmd.addArg w).words.Perm (cmd.words ++ [w]) := by
  intro cmd
  induction cmd with
  | exec argv => exact fun _ => List.Perm.refl _
  | redir cmd file mode fd ih =>
    intro h
    refine ((ih h.1).append_right [file]).trans ?_
    change (cmd.words ++ [w] ++ [file]).Perm (cmd.words ++ [file] ++ [w])
    rw [List.append_assoc, List.append_assoc]
    have hswap : ([w] ++ [file]).Perm ([file] ++ [w]) := List.perm_append_comm
    exact hswap.append_left cmd.words
  | pipe left right => exact False.elim
  | list left right => exact False.elim
  | back cmd => exact False.elim

theorem words_map (f : V → W) (cmd : Cmd V) : (cmd.map f).words = cmd.words.map f := by
  induction cmd with
  | exec argv => rfl
  | redir cmd file mode fd ih => simp only [map, words, ih, List.map_append, List.map_cons,
      List.map_nil]
  | pipe left right ihl ihr => simp only [map, words, ihl, ihr, List.map_append]
  | list left right ihl ihr => simp only [map, words, ihl, ihr, List.map_append]
  | back cmd ih => exact ih

theorem wellFormed_map (f : V → W) {cmd : Cmd V} (h : cmd.WellFormed) :
    (cmd.map f).WellFormed := by
  induction cmd with
  | exec argv => exact lt_of_eq_of_lt (List.length_map f) h
  | redir cmd file mode fd ih => exact ⟨ih h.1, h.2⟩
  | pipe left right ihl ihr => exact ⟨ihl h.1, ihr h.2⟩
  | list left right ihl ihr => exact ⟨ihl h.1, ihr h.2⟩
  | back cmd ih => exact ih h

end Cmd

/-! ## Tokens -/

/-- The words of a text: its maximal runs of ordinary characters. -/
def wordsOf (s : List Char) : List (List Char) := fields (fun c => !ordinary c) s

variable {s r : List Char} {c : Char}

theorem ordinary_of_whitespace (h : c ∈ whitespace) : ordinary c = false := by
  simp [ordinary, h]

theorem ordinary_of_symbol (h : c ∈ symbols) : ordinary c = false := by
  simp [ordinary, h]

theorem skip_suffix (s : List Char) : skip s <:+ s := List.dropWhile_suffix _

theorem wordsOf_cons (h : ordinary c = false) (s : List Char) : wordsOf (c :: s) = wordsOf s :=
  fields_cons_of_pos (by rw [h]; rfl)

theorem wordsOf_skip (s : List Char) : wordsOf (skip s) = wordsOf s := by
  induction s with
  | nil => rfl
  | cons c s ih =>
    rw [skip, List.dropWhile_cons]
    split
    · rename_i hc
      rw [wordsOf_cons (ordinary_of_whitespace (of_decide_eq_true hc)), ← ih]
      rfl
    · rfl

/-- The first character that is left is not white. -/
theorem not_whitespace_of_skip (h : skip s = c :: r) : c ∉ whitespace := by
  have hhead := List.head_dropWhile_not (· ∈ whitespace) (l := s) (by
    change skip s ≠ []
    rw [h]
    exact List.cons_ne_nil c r)
  have hc : (s.dropWhile (· ∈ whitespace)) = c :: r := h
  simp only [hc, List.head_cons, decide_eq_false_iff_not] at hhead
  exact hhead

/-- A character that is neither white nor a symbol. -/
theorem ordinary_of_not (h₁ : c ∉ whitespace) (h₂ : c ∉ symbols) : ordinary c = true := by
  simp [ordinary, h₁, h₂]

theorem length_skip_le (s : List Char) : (skip s).length ≤ s.length := (skip_suffix s).length_le

/-- **A symbol.**  The words of the line are behind it. -/
theorem gettoken_symbol (h : skip s = c :: r) (hc : c ∈ symbols) :
    (gettoken s).1 ≠ 'a' ∧ (gettoken s).1 ≠ nul ∧ (gettoken s).2.2 <:+ s ∧
      (gettoken s).2.2.length < s.length ∧ wordsOf (gettoken s).2.2 = wordsOf s := by
  have hlex : ∃ tok eq, lex (skip s) = (tok, eq) ∧ tok ≠ 'a' ∧ tok ≠ nul ∧
      eq <:+ r ∧ wordsOf eq = wordsOf r := by
    rw [h]
    unfold lex
    split
    · rename_i heq
      cases heq
    · rename_i s' heq
      obtain ⟨rfl, rfl⟩ := List.cons.inj heq
      exact ⟨_, _, rfl, by decide, by decide, List.suffix_cons _ _,
        (wordsOf_cons (by decide) s').symm⟩
    · rename_i c' s' _ heq
      obtain ⟨rfl, rfl⟩ := List.cons.inj heq
      rw [if_pos hc]
      refine ⟨_, _, rfl, ?_, ?_, List.suffix_rfl, rfl⟩
      · rintro rfl
        exact absurd hc (by decide)
      · rintro rfl
        exact absurd hc (by decide)
  obtain ⟨tok, eq, hlex, htok, hnul, hsuffix, hwords⟩ := hlex
  have hr : r <:+ s := (List.suffix_cons c r).trans (h ▸ skip_suffix s)
  have hlt : r.length < s.length := by
    have := length_skip_le s
    rw [h, List.length_cons] at this
    omega
  have hle := (skip_suffix eq).length_le
  have hle' := hsuffix.length_le
  rw [gettoken, hlex]
  refine ⟨htok, hnul, (skip_suffix eq).trans (hsuffix.trans hr), ?_, ?_⟩
  · change (skip eq).length < s.length
    omega
  · change wordsOf (skip eq) = wordsOf s
    rw [wordsOf_skip, hwords, ← wordsOf_skip s, h, wordsOf_cons (ordinary_of_symbol hc)]

/-- A word that is cut out of the line by its two pointers. -/
structure Cut (line : List Char) (w : Word) : Prop where
  suffix : w.q <:+ line
  split : w.q = w.text ++ w.eq
  ne_nil : w.text ≠ []
  ordinary : ∀ c ∈ w.text, ordinary c = true
  ends : ∀ c ∈ w.eq.head?, Sh.ordinary c = false

theorem Word.text_eq {w : Word} {text : List Char} (h : w.q = text ++ w.eq) : w.text = text := by
  rw [Word.text, h, List.length_append, Nat.add_sub_cancel, List.take_left]

/-- **A word.** -/
theorem gettoken_word {line : List Char} (h : skip s = c :: r) (hc : ordinary c = true)
    (hs : s <:+ line) :
    (gettoken s).1 = 'a' ∧ Cut line (gettoken s).2.1 ∧ (gettoken s).2.2 <:+ s ∧
      (gettoken s).2.2.length < s.length ∧
      wordsOf s = (gettoken s).2.1.text :: wordsOf (gettoken s).2.2 := by
  have hsymbol : c ∉ symbols := fun hm => by
    rw [ordinary_of_symbol hm] at hc
    cases hc
  have hlex : lex (skip s) = ('a', (c :: r).dropWhile ordinary) := by
    rw [h]
    unfold lex
    split
    · rename_i heq
      cases heq
    · rename_i heq
      obtain ⟨rfl, -⟩ := List.cons.inj heq
      exact absurd (by decide) hsymbol
    · rename_i heq
      obtain ⟨rfl, rfl⟩ := List.cons.inj heq
      rw [if_neg hsymbol]
  have hsplit := List.takeWhile_append_dropWhile (p := ordinary) (l := c :: r)
  have hends : ∀ d ∈ ((c :: r).dropWhile ordinary).head?, ordinary d = false := fun d hd => by
    have hne : (c :: r).dropWhile ordinary ≠ [] := by
      intro hnil
      rw [hnil] at hd
      cases hd
    have hhead := List.head_dropWhile_not ordinary (l := c :: r) hne
    rw [Option.mem_def, List.head?_eq_some_head hne, Option.some.injEq] at hd
    rwa [hd] at hhead
  have hwords : wordsOf (c :: r) =
      (c :: r).takeWhile ordinary :: wordsOf ((c :: r).dropWhile ordinary) := by
    have hfields := fields_of_not_head (p := fun c => !ordinary c) (l := r)
      (show ¬ (!ordinary c) = true by rw [hc]; decide)
    simp only [Bool.not_not] at hfields
    rw [wordsOf, hfields]
    cases hdrop : (c :: r).dropWhile ordinary with
    | nil => rfl
    | cons d rest =>
      rw [wordsOf_cons (hends d (by rw [hdrop]; rfl))]
      rfl
  have hne : (c :: r).takeWhile ordinary ≠ [] := by
    rw [List.takeWhile_cons_of_pos hc]
    exact List.cons_ne_nil _ _
  have hr : r <:+ s := (List.suffix_cons c r).trans (h ▸ skip_suffix s)
  have hdrop : (c :: r).dropWhile ordinary <:+ r := by
    rw [List.dropWhile_cons_of_pos hc]
    exact List.dropWhile_suffix _
  have hlt : r.length < s.length := by
    have := length_skip_le s
    rw [h, List.length_cons] at this
    omega
  rw [gettoken, hlex, h]
  obtain ⟨eq, heq⟩ : ∃ eq, (c :: r).dropWhile ordinary = eq := ⟨_, rfl⟩
  rw [heq] at hsplit hends hwords hdrop ⊢
  have htext : (⟨c :: r, eq⟩ : Word).text = (c :: r).takeWhile ordinary :=
    Word.text_eq hsplit.symm
  refine ⟨rfl, ⟨h ▸ (skip_suffix s).trans hs, ?_, ?_, ?_, hends⟩,
    (skip_suffix eq).trans (hdrop.trans hr), ?_, ?_⟩
  · rw [htext]
    exact hsplit.symm
  · rwa [htext]
  · rw [htext]
    exact fun d hd => List.mem_takeWhile_imp hd
  · have hle := (skip_suffix eq).length_le
    have hle' := hdrop.length_le
    change (skip eq).length < s.length
    omega
  · rw [htext, ← wordsOf_skip s, h, hwords]
    change _ = _ :: wordsOf (skip eq)
    rw [wordsOf_skip]

/-- The end of the line. -/
theorem gettoken_nil (h : skip s = []) : (gettoken s).1 = nul := by
  rw [gettoken, h]
  rfl

theorem peek_snd (s toks : List Char) : (peek s toks).2 = skip s := rfl

/-- **What `peek` says.** -/
theorem exists_of_found {toks : List Char} (h : found s toks = true) :
    ∃ c r, skip s = c :: r ∧ c ∈ toks := by
  rw [found] at h
  cases hs : skip s with
  | nil =>
    rw [hs] at h
    cases h
  | cons c r =>
    rw [hs] at h
    exact ⟨c, r, rfl, by simpa using h⟩

theorem skip_skip (s : List Char) : skip (skip s) = skip s := List.dropWhile_idempotent _ s

/-- A token of the kind `'a'` is a word. -/
theorem gettoken_of_word {line : List Char} (h : (gettoken s).1 = 'a') (hs : s <:+ line) :
    Cut line (gettoken s).2.1 ∧ (gettoken s).2.2 <:+ s ∧
      (gettoken s).2.2.length < s.length ∧
      wordsOf s = (gettoken s).2.1.text :: wordsOf (gettoken s).2.2 := by
  cases hskip : skip s with
  | nil =>
    rw [gettoken_nil hskip] at h
    exact absurd h (by decide)
  | cons c r =>
    by_cases hc : c ∈ symbols
    · exact absurd h (gettoken_symbol hskip hc).1
    · exact (gettoken_word hskip (ordinary_of_not (not_whitespace_of_skip hskip) hc) hs).2

/-- The token 0 is the end of the line. -/
theorem skip_of_nul (h : (gettoken s).1 = nul) : skip s = [] := by
  cases hskip : skip s with
  | nil => rfl
  | cons c r =>
    by_cases hc : c ∈ symbols
    · exact absurd h (gettoken_symbol hskip hc).2.1
    · have hword := gettoken_word hskip
        (ordinary_of_not (not_whitespace_of_skip hskip) hc) List.suffix_rfl
      rw [hword.1] at h
      exact absurd h (by decide)

/-- The token of a redirection. -/
theorem gettoken_redir (h : skip s = c :: r) (hc : c ∈ ['<', '>']) :
    (gettoken s).1 = '<' ∨ (gettoken s).1 = '>' ∨ (gettoken s).1 = '+' := by
  rw [gettoken, h]
  rcases List.mem_cons.mp hc with rfl | hc
  · exact Or.inl rfl
  · rw [List.mem_singleton.mp hc]
    cases r with
    | nil => exact Or.inr (Or.inl rfl)
    | cons d r =>
      by_cases hd : d = '>'
      · rw [hd]
        exact Or.inr (Or.inr rfl)
      · refine Or.inr (Or.inl ?_)
        unfold lex
        split
        · rename_i heq
          cases heq
        · rename_i heq
          exact absurd (List.cons.inj (List.cons.inj heq).2).1 hd
        · rename_i heq
          rw [← (List.cons.inj heq).1]
          rfl

/-! ## Redirections -/

/-- The messages of the source that a line can bring about. -/
def Reported (e : Panic) : Prop := e ≠ .timeout ∧ e ≠ .parseblock

/-- **What has been parsed and what is left**: a tree of the shape `K`, whose words are cut out of
the line, and with those that are left are the words `T`. -/
structure Parsed (K : Cmd Word → Prop) (line : List Char) (T : List (List Char))
    (cmd : Cmd Word) (s : List Char) : Prop where
  shape : K cmd
  suffix : s <:+ line
  cuts : ∀ w ∈ cmd.words, Cut line w
  words : (cmd.words.map Word.text ++ wordsOf s).Perm T

variable {K : Cmd Word → Prop} {line : List Char} {T : List (List Char)} {cmd : Cmd Word}

/-- Less is left, with the same words. -/
theorem Parsed.rest {s' : List Char} (h : Parsed K line T cmd s) (hs : s' <:+ s)
    (hwords : wordsOf s' = wordsOf s) : Parsed K line T cmd s' :=
  ⟨h.shape, hs.trans h.suffix, h.cuts, hwords ▸ h.words⟩

theorem Parsed.skip (h : Parsed K line T cmd s) : Parsed K line T cmd (skip s) :=
  h.rest (skip_suffix s) (wordsOf_skip s)

/-- A symbol behind the command. -/
theorem Parsed.symbol (h : Parsed K line T cmd s) (hs : Sh.skip s = c :: r) (hc : c ∈ symbols) :
    Parsed K line T cmd (gettoken (Sh.skip s)).2.2 ∧
      (gettoken (Sh.skip s)).2.2.length < s.length := by
  obtain ⟨-, -, hsuffix, hlt, hwords⟩ := gettoken_symbol (s := Sh.skip s) (skip_skip s ▸ hs) hc
  have := length_skip_le s
  exact ⟨h.skip.rest hsuffix hwords, by omega⟩

/-- A redirection behind the command. -/
theorem Parsed.redir (h : Parsed K line T cmd s) {w : Word} {s' : List Char} (hw : Cut line w)
    (hs : s' <:+ s) (hwords : wordsOf s = w.text :: wordsOf s') {mode fd : ℕ}
    (hK : K (.redir cmd w mode fd)) : Parsed K line T (.redir cmd w mode fd) s' where
  shape := hK
  suffix := hs.trans h.suffix
  cuts v hv := by
    rcases List.mem_append.mp hv with hv | hv
    · exact h.cuts v hv
    · rw [List.mem_singleton.mp hv]
      exact hw
  words := by
    have hperm := h.words
    rw [hwords] at hperm
    change ((cmd.words ++ [w]).map Word.text ++ wordsOf s').Perm T
    rwa [List.map_append, List.append_assoc]

/-- A round of a loop that leaves less of the line, or its result. -/
def Progress (K : Cmd Word → Prop) (line : List Char) (T : List (List Char)) (s : List Char) :
    Cmd Word × List Char ⊕ Cmd Word × List Char → Prop
  | .inl r => Parsed K line T r.1 r.2 ∧ r.2.length < s.length
  | .inr r => Parsed K line T r.1 r.2 ∧ r.2.length ≤ s.length

theorem redirBody_yields (hK : ∀ cmd w mode fd, K cmd → IsMode mode fd → K (.redir cmd w mode fd))
    (h : Parsed K line T cmd s) :
    Yields Reported (Progress K line T s) (redirBody (cmd, s)) := by
  simp only [redirBody]
  by_cases hfound : (peek s ['<', '>']).1 = true
  · rw [if_pos hfound, peek_snd]
    obtain ⟨c, r, hskip, hc⟩ := exists_of_found hfound
    have hsymbol : c ∈ symbols := by
      rcases List.mem_cons.mp hc with rfl | hc
      · decide
      · rw [List.mem_singleton.mp hc]
        decide
    obtain ⟨hrest, hlt⟩ := h.symbol hskip hsymbol
    have htok := gettoken_redir (s := skip s) (skip_skip s ▸ hskip) hc
    by_cases hword : (gettoken (gettoken (skip s)).2.2).1 = 'a'
    · rw [if_neg (not_not.mpr hword)]
      obtain ⟨hw, hs, hlt', hwords⟩ := gettoken_of_word hword hrest.suffix
      by_cases hless : (gettoken (skip s)).1 = '<'
      · rw [if_pos hless]
        exact ⟨hrest.redir hw hs hwords (hK _ _ _ _ h.shape (Or.inl ⟨rfl, rfl⟩)),
          hlt'.trans hlt⟩
      · rw [if_neg hless, if_pos (htok.resolve_left hless)]
        exact ⟨hrest.redir hw hs hwords (hK _ _ _ _ h.shape (Or.inr ⟨rfl, rfl⟩)),
          hlt'.trans hlt⟩
    · rw [if_pos hword]
      exact ⟨by decide, by decide⟩
  · rw [if_neg hfound, peek_snd]
    exact ⟨h.skip, length_skip_le s⟩

/-- **`parseredirs`** wraps redirections around a command. -/
theorem parseredirs_yields
    (hK : ∀ cmd w mode fd, K cmd → IsMode mode fd → K (.redir cmd w mode fd))
    (h : Parsed K line T cmd s) :
    Yields Reported (fun r => Parsed K line T r.1 r.2 ∧ r.2.length ≤ s.length)
      (parseredirs cmd s) := by
  refine Yields.loop (I := fun r => Parsed K line T r.1 r.2 ∧ r.2.length ≤ s.length)
    (fun r => r.2.length) (fun r hr => ?_) ⟨h, le_refl _⟩ (Nat.lt_succ_self _)
  refine (redirBody_yields hK hr.1).mono fun r' hr' => ?_
  cases r' with
  | inl r' => exact ⟨⟨hr'.1, hr'.2.le.trans hr.2⟩, hr'.2⟩
  | inr r' => exact ⟨hr'.1, hr'.2.trans hr.2⟩

/-! ## Simple commands -/

/-- One more argument. -/
theorem Parsed.addArg {argc : ℕ} (h : Parsed (Cmd.Simple argc) line T cmd s) {w : Word}
    {s' : List Char} (hw : Cut line w) (hs : s' <:+ s)
    (hwords : wordsOf s = w.text :: wordsOf s') :
    Parsed (Cmd.Simple (argc + 1)) line T (cmd.addArg w) s' where
  shape := h.shape.addArg w
  suffix := hs.trans h.suffix
  cuts v hv := by
    have hv := (h.shape.words_addArg w).mem_iff.mp hv
    rcases List.mem_append.mp hv with hv | hv
    · exact h.cuts v hv
    · rw [List.mem_singleton.mp hv]
      exact hw
  words := by
    have hperm := h.words
    rw [hwords] at hperm
    refine (((h.shape.words_addArg w).map Word.text).append_right _).trans ?_
    rwa [List.map_append, List.append_assoc]

/-- A round of the loop of `parseexec`. -/
def ExecProgress (line : List Char) (T : List (List Char)) (s : List Char) :
    Cmd Word × ℕ × List Char ⊕ Cmd Word × List Char → Prop
  | .inl r => Parsed (Cmd.Simple r.2.1) line T r.1 r.2.2 ∧ r.2.1 < maxArgs ∧
      r.2.2.length < s.length
  | .inr r => Parsed Cmd.WellFormed line T r.1 r.2 ∧ r.2.length ≤ s.length

/-- A simple command with its arguments is well formed. -/
theorem Parsed.wellFormed {argc : ℕ} (h : Parsed (Cmd.Simple argc) line T cmd s)
    (hargc : argc < maxArgs) : Parsed Cmd.WellFormed line T cmd s :=
  ⟨h.shape.wellFormed hargc, h.suffix, h.cuts, h.words⟩

theorem execBody_yields {argc : ℕ} (h : Parsed (Cmd.Simple argc) line T cmd s)
    (hargc : argc < maxArgs) :
    Yields Reported (ExecProgress line T s) (execBody (cmd, argc, s)) := by
  have hdone : Parsed Cmd.WellFormed line T cmd (skip s) := h.skip.wellFormed hargc
  simp only [execBody]
  by_cases hfound : (peek s ['|', ')', '&', ';']).1 = true
  · rw [if_pos hfound, peek_snd]
    exact ⟨hdone, length_skip_le s⟩
  rw [if_neg hfound, peek_snd]
  by_cases hnul : (gettoken (skip s)).1 = nul
  · rw [if_pos hnul]
    have hs : skip s = [] := skip_skip s ▸ skip_of_nul hnul
    rw [hs] at hdone ⊢
    exact ⟨hdone, Nat.zero_le _⟩
  rw [if_neg hnul]
  by_cases hword : (gettoken (skip s)).1 = 'a'
  · rw [if_neg (not_not.mpr hword)]
    by_cases hmax : maxArgs ≤ argc + 1
    · rw [if_pos hmax]
      exact ⟨by decide, by decide⟩
    · rw [if_neg hmax]
      obtain ⟨hw, hs, hlt, hwords⟩ := gettoken_of_word hword h.skip.suffix
      have harg := h.skip.addArg hw hs hwords
      refine (parseredirs_yields (fun _ _ _ _ hK hmode => ⟨hK, hmode⟩) harg).bind fun r hr => ?_
      have hle := length_skip_le s
      exact ⟨hr.1, not_le.mp hmax, by
        change r.2.length < s.length
        omega⟩
  · rw [if_pos hword]
    exact ⟨by decide, by decide⟩

/-- The loop of `parseexec`. -/
theorem execLoop_yields (h : Parsed (Cmd.Simple 0) line T cmd s) :
    Yields Reported (fun r => Parsed Cmd.WellFormed line T r.1 r.2 ∧ r.2.length ≤ s.length)
      (loop .timeout execBody (s.length + 1) (cmd, 0, s)) := by
  refine Yields.loop
    (I := fun r => Parsed (Cmd.Simple r.2.1) line T r.1 r.2.2 ∧ r.2.1 < maxArgs ∧
      r.2.2.length ≤ s.length)
    (fun r => r.2.2.length) (fun r hr => ?_) ⟨h, Nat.zero_lt_succ 9, le_refl _⟩
    (Nat.lt_succ_self _)
  refine (execBody_yields hr.1 hr.2.1).mono fun r' hr' => ?_
  cases r' with
  | inl r' => exact ⟨⟨hr'.1, hr'.2.1, hr'.2.2.le.trans hr.2.2⟩, hr'.2.2⟩
  | inr r' => exact ⟨hr'.1, hr'.2.trans hr.2.2⟩

/-! ## The levels of the grammar -/

/-- What a function of the parser does with a rest `s` of the line. -/
def Takes (line s : List Char) (r : Except Panic (Cmd Word × List Char)) : Prop :=
  Yields Reported
    (fun r => Parsed Cmd.WellFormed line (wordsOf s) r.1 r.2 ∧ r.2.length ≤ s.length) r

/-- The four functions with fuel `n`, on the rests that it is enough for. -/
structure Parses (line : List Char) (n : ℕ) : Prop where
  parseline : ∀ s, s <:+ line → 4 * s.length + 4 ≤ n → Takes line s (Sh.parseline n s)
  parsepipe : ∀ s, s <:+ line → 4 * s.length + 3 ≤ n → Takes line s (Sh.parsepipe n s)
  parseexec : ∀ s, s <:+ line → 4 * s.length + 2 ≤ n → Takes line s (Sh.parseexec n s)
  parseblock : ∀ s, s <:+ line → found s ['('] = true → 4 * s.length + 1 ≤ n →
    Takes line s (Sh.parseblock n s)

variable {n : ℕ}

/-- Nothing parsed yet. -/
theorem Parsed.nil (hs : s <:+ line) :
    Parsed (Cmd.Simple 0) line (wordsOf s) (.exec []) s where
  shape := rfl
  suffix := hs
  cuts _ hw := absurd hw List.not_mem_nil
  words := List.Perm.refl _

theorem takes_parseexec (ih : Parses line n) (hs : s <:+ line) (hn : 4 * s.length + 2 ≤ n + 1) :
    Takes line s (parseexec (n + 1) s) := by
  rw [parseexec]
  have hle := length_skip_le s
  have hskip := (skip_suffix s).trans hs
  by_cases hfound : (peek s ['(']).1 = true
  · simp only [if_pos hfound, peek_snd]
    have hblock := ih.parseblock (skip s) hskip (by rwa [found, skip_skip]) (by omega)
    rw [Takes, wordsOf_skip] at hblock
    exact hblock.mono fun r hr => ⟨hr.1, hr.2.trans hle⟩
  · simp only [if_neg hfound, peek_snd]
    have hnil := Parsed.nil hskip
    rw [wordsOf_skip] at hnil
    refine (parseredirs_yields (fun _ _ _ _ hK hmode => ⟨hK, hmode⟩) hnil).bind fun r hr => ?_
    exact (execLoop_yields hr.1).mono fun r' hr' => ⟨hr'.1, hr'.2.trans (hr.2.trans hle)⟩

/-- Two commands with a symbol between them. -/
theorem Parsed.join {T' : List (List Char)} {right : Cmd Word} {s' : List Char}
    {join : Cmd Word → Cmd Word → Cmd Word}
    (hjoin : ∀ l r : Cmd Word, (join l r).words = l.words ++ r.words)
    (hshape : ∀ l r : Cmd Word, l.WellFormed → r.WellFormed → (join l r).WellFormed)
    (h : Parsed Cmd.WellFormed line T cmd s) (hT : T' = wordsOf s)
    (h' : Parsed Cmd.WellFormed line T' right s') :
    Parsed Cmd.WellFormed line T (join cmd right) s' where
  shape := hshape cmd right h.shape h'.shape
  suffix := h'.suffix
  cuts w hw := by
    rw [hjoin] at hw
    exact (List.mem_append.mp hw).elim (h.cuts w) (h'.cuts w)
  words := by
    rw [hjoin, List.map_append, List.append_assoc]
    refine (h'.words.append_left _).trans ?_
    rw [hT]
    exact h.words

theorem takes_parsepipe (ih : Parses line n) (hs : s <:+ line) (hn : 4 * s.length + 3 ≤ n + 1) :
    Takes line s (parsepipe (n + 1) s) := by
  rw [parsepipe]
  refine (ih.parseexec s hs (by omega)).bind fun r hr => ?_
  obtain ⟨cmd, s₁⟩ := r
  obtain ⟨hr, hle⟩ := hr
  by_cases hfound : (peek s₁ ['|']).1 = true
  · simp only [if_pos hfound, peek_snd]
    obtain ⟨c, r, hskip, hc⟩ := exists_of_found hfound
    obtain ⟨hrest, hlt⟩ := hr.symbol hskip (by rw [List.mem_singleton.mp hc]; decide)
    refine (ih.parsepipe _ hrest.suffix (by omega)).bind fun r' hr' => ?_
    exact ⟨hrest.join (fun _ _ => rfl) (fun _ _ hl hr => ⟨hl, hr⟩) rfl hr'.1,
      (hr'.2.trans hlt.le).trans hle⟩
  · simp only [if_neg hfound, peek_snd]
    exact ⟨hr.skip, (length_skip_le s₁).trans hle⟩

theorem backLoop_yields (h : Parsed Cmd.WellFormed line T cmd s) :
    Yields Reported (fun r => Parsed Cmd.WellFormed line T r.1 r.2 ∧ r.2.length ≤ s.length)
      (loop .timeout backBody (s.length + 1) (cmd, s)) := by
  refine Yields.loop
    (I := fun r => Parsed Cmd.WellFormed line T r.1 r.2 ∧ r.2.length ≤ s.length)
    (fun r => r.2.length) (fun r hr => ?_) ⟨h, le_refl _⟩ (Nat.lt_succ_self _)
  obtain ⟨cmd, s₁⟩ := r
  obtain ⟨hr, hle⟩ := hr
  simp only [backBody]
  by_cases hfound : (peek s₁ ['&']).1 = true
  · rw [if_pos hfound, peek_snd]
    obtain ⟨c, r, hskip, hc⟩ := exists_of_found hfound
    obtain ⟨hrest, hlt⟩ := hr.symbol hskip (by rw [List.mem_singleton.mp hc]; decide)
    exact ⟨⟨⟨hrest.shape, hrest.suffix, hrest.cuts, hrest.words⟩, hlt.le.trans hle⟩, hlt⟩
  · rw [if_neg hfound, peek_snd]
    exact ⟨hr.skip, (length_skip_le s₁).trans hle⟩

theorem takes_parseline (ih : Parses line n) (hs : s <:+ line) (hn : 4 * s.length + 4 ≤ n + 1) :
    Takes line s (parseline (n + 1) s) := by
  rw [parseline]
  refine (ih.parsepipe s hs (by omega)).bind fun r hr => ?_
  obtain ⟨cmd, s₁⟩ := r
  obtain ⟨hr, hle⟩ := hr
  refine (backLoop_yields hr).bind fun r hr => ?_
  obtain ⟨cmd', s₂⟩ := r
  obtain ⟨hr', hle'⟩ := hr
  by_cases hfound : (peek s₂ [';']).1 = true
  · simp only [if_pos hfound, peek_snd]
    obtain ⟨c, r, hskip, hc⟩ := exists_of_found hfound
    obtain ⟨hrest, hlt⟩ := hr'.symbol hskip (by rw [List.mem_singleton.mp hc]; decide)
    have hlt' : (gettoken (skip s₂)).2.2.length < s.length :=
      hlt.trans_le (hle'.trans hle)
    refine (ih.parseline _ hrest.suffix (by omega)).bind fun r' hr' => ?_
    exact ⟨hrest.join (fun _ _ => rfl) (fun _ _ hl hr => ⟨hl, hr⟩) rfl hr'.1,
      hr'.2.trans hlt'.le⟩
  · simp only [if_neg hfound, peek_snd]
    exact ⟨hr'.skip, (length_skip_le s₂).trans (hle'.trans hle)⟩

theorem takes_parseblock (ih : Parses line n) (hs : s <:+ line) (hfound : found s ['('] = true)
    (hn : 4 * s.length + 1 ≤ n + 1) : Takes line s (parseblock (n + 1) s) := by
  rw [parseblock]
  have hfound' : (peek s ['(']).1 = true := hfound
  simp only [hfound', Bool.not_true, Bool.false_eq_true, if_false, peek_snd]
  obtain ⟨c, r, hskip, hc⟩ := exists_of_found hfound
  obtain ⟨-, -, hsuffix, hlt, hwords⟩ := gettoken_symbol (s := skip s) (skip_skip s ▸ hskip)
    (by rw [List.mem_singleton.mp hc]; decide : c ∈ symbols)
  have hle := length_skip_le s
  have hopen : (gettoken (skip s)).2.2 <:+ line := hsuffix.trans ((skip_suffix s).trans hs)
  rw [wordsOf_skip] at hwords
  refine (ih.parseline _ hopen (by omega)).bind fun r hr => ?_
  obtain ⟨cmd, s₁⟩ := r
  obtain ⟨hr, hle'⟩ := hr
  rw [hwords] at hr
  by_cases hclose : (peek s₁ [')']).1 = true
  · simp only [hclose, Bool.not_true, Bool.false_eq_true, if_false]
    obtain ⟨d, r, hskip', hd⟩ := exists_of_found hclose
    obtain ⟨hrest, hlt'⟩ := hr.symbol hskip' (by rw [List.mem_singleton.mp hd]; decide)
    refine (parseredirs_yields (fun _ _ _ _ hK hmode => ⟨hK, hmode⟩) hrest).mono fun r' hr' => ?_
    exact ⟨hr'.1, by omega⟩
  · simp only [hclose, Bool.not_false, if_true]
    exact ⟨by decide, by decide⟩

/-- **The parser on every rest of the line**, by induction on the fuel. -/
theorem parses (line : List Char) : ∀ n, Parses line n := by
  intro n
  induction n with
  | zero => exact ⟨fun s _ h => absurd h (by omega), fun s _ h => absurd h (by omega),
      fun s _ h => absurd h (by omega), fun s _ _ h => absurd h (by omega)⟩
  | succ n ih => exact ⟨fun s => takes_parseline ih, fun s => takes_parsepipe ih,
      fun s => takes_parseexec ih, fun s => takes_parseblock ih⟩

/-! ## The strings -/

theorem nulterminate_eq_cut (line : List Char) (cmd : Cmd Word) :
    ∀ buf, nulterminate line cmd buf = cut buf line cmd.words := by
  induction cmd with
  | exec argv => exact fun buf => rfl
  | redir cmd file mode fd ih =>
    intro buf
    rw [nulterminate, ih, Cmd.words, cut, cut, cut, List.foldl_append]
  | pipe left right ihl ihr =>
    intro buf
    rw [nulterminate, ihl, ihr, Cmd.words, cut, cut, cut, List.foldl_append]
  | list left right ihl ihr =>
    intro buf
    rw [nulterminate, ihl, ihr, Cmd.words, cut, cut, cut, List.foldl_append]
  | back cmd ih => exact ih

variable {buf : List Char} {ws : List Word} {w : Word} {i : ℕ}

/-- A character that no pointer behind a word points to is kept. -/
theorem cut_getElem?_of_ne (h : ∀ w ∈ ws, line.length - w.eq.length ≠ i) :
    ∀ buf : List Char, (cut buf line ws)[i]? = buf[i]? := by
  induction ws with
  | nil => exact fun buf => rfl
  | cons w ws ih =>
    intro buf
    refine (ih (fun v hv => h v (List.mem_cons_of_mem _ hv)) _).trans ?_
    exact List.getElem?_set_ne (h w List.mem_cons_self)

/-- Behind each word there is a NUL. -/
theorem cut_getElem?_of_mem (h : ∃ w ∈ ws, line.length - w.eq.length = i) :
    ∀ buf : List Char, i < buf.length → (cut buf line ws)[i]? = some nul := by
  induction ws with
  | nil =>
    obtain ⟨w, hw, -⟩ := h
    exact absurd hw List.not_mem_nil
  | cons v ws ih =>
    intro buf hlt
    by_cases hlater : ∃ w ∈ ws, line.length - w.eq.length = i
    · exact ih hlater _ (by rwa [List.length_set])
    · obtain ⟨w, hw, heq⟩ := h
      rcases List.mem_cons.mp hw with rfl | hw
      · refine (cut_getElem?_of_ne (fun u hu h => hlater ⟨u, hu, h⟩) _).trans ?_
        change (buf.set (line.length - w.eq.length) nul)[i]? = some nul
        rw [heq, List.getElem?_set_self hlt]
      · exact absurd ⟨w, hw, heq⟩ hlater

/-- The pointers of a word are places in the line. -/
theorem Cut.place (h : Cut line w) :
    line.drop (line.length - w.q.length) = w.q ∧
      line.length - w.eq.length = line.length - w.q.length + w.text.length := by
  obtain ⟨front, hfront⟩ := h.suffix
  have hlen := congrArg List.length hfront
  have hsplit := congrArg List.length h.split
  rw [List.length_append] at hlen hsplit
  have hq : line.length - w.q.length = front.length := by omega
  refine ⟨?_, by omega⟩
  rw [hq, ← hfront, List.drop_left]

/-- The character that a NUL is written over is not ordinary. -/
theorem Cut.not_ordinary (h : Cut line w) {c : Char}
    (hc : (line)[line.length - w.eq.length]? = some c) : Sh.ordinary c = false := by
  obtain ⟨hdrop, hplace⟩ := h.place
  rw [hplace, ← List.getElem?_drop, hdrop, h.split, List.getElem?_append_right (le_refl _),
    Nat.sub_self] at hc
  exact h.ends c (by rw [Option.mem_def, List.head?_eq_getElem?]; exact hc)

/-- **A word is the string that it was in the line**, if the buffer has kept the ordinary
characters and there is a NUL behind the word. -/
theorem stringAt_eq (h : Cut line w) (hnul : nul ∉ line)
    (hkept : ∀ (i : ℕ) (c : Char), (line)[i]? = some c → ordinary c = true → buf[i]? = some c)
    (hcut : buf[line.length - w.eq.length]? = some nul) : stringAt line buf w = w.text := by
  obtain ⟨hdrop, hplace⟩ := h.place
  rw [hplace] at hcut
  have hsplit : buf.drop (line.length - w.q.length) = w.text ++
      buf.drop (line.length - w.q.length + w.text.length) := by
    have htake : (buf.drop (line.length - w.q.length)).take w.text.length = w.text := by
      refine List.ext_getElem? fun j => ?_
      by_cases hj : j < w.text.length
      · have hline : (line)[line.length - w.q.length + j]? = some w.text[j] := by
          rw [← List.getElem?_drop, hdrop, h.split, List.getElem?_append_left hj,
            List.getElem?_eq_getElem hj]
        rw [List.getElem?_take_of_lt hj, List.getElem?_drop, List.getElem?_eq_getElem hj]
        exact hkept _ _ hline (h.ordinary _ (List.getElem_mem hj))
      · rw [List.getElem?_take_eq_none (not_lt.mp hj), List.getElem?_eq_none (not_lt.mp hj)]
    have happend := List.take_append_drop w.text.length
      (buf.drop (line.length - w.q.length))
    rw [htake, List.drop_drop] at happend
    exact happend.symm
  have htext : ∀ c ∈ w.text, decide (c ≠ nul) = true := fun c hc => decide_eq_true (by
    rintro rfl
    refine hnul (h.suffix.mem ?_)
    rw [h.split]
    exact List.mem_append_left _ hc)
  obtain ⟨hlt, hget⟩ := List.getElem?_eq_some_iff.mp hcut
  rw [stringAt, hsplit, List.takeWhile_append_of_pos htext, List.drop_eq_getElem_cons hlt, hget,
    List.takeWhile_cons_of_neg (by simp), List.append_nil]

/-- **`nulterminate` damages no word**: each one is the string that it was in the line. -/
theorem stringAt_nulterminate (hnul : nul ∉ line) (hcuts : ∀ w ∈ cmd.words, Cut line w)
    (hw : w ∈ cmd.words) :
    stringAt line (nulterminate line cmd (line ++ [nul])) w = w.text := by
  rw [nulterminate_eq_cut]
  have hlength : (line ++ [nul]).length = line.length + 1 := by
    rw [List.length_append, List.length_singleton]
  refine stringAt_eq (hcuts w hw) hnul (fun i c hc hordinary => ?_)
    (cut_getElem?_of_mem ⟨w, hw, rfl⟩ _ (by omega))
  rw [cut_getElem?_of_ne (i := i) (fun v hv heq => ?_),
    List.getElem?_append_left (List.getElem?_eq_some_iff.mp hc).1, hc]
  rw [← heq] at hc
  rw [(hcuts v hv).not_ordinary hc] at hordinary
  cases hordinary

/-! ## The parser as a whole -/

/-- A line that has been parsed to its end. -/
theorem parsecmd_of_parsed (h : Parsed Cmd.WellFormed line (wordsOf line) cmd s)
    (hnul : nul ∉ line) (hs : skip s = []) :
    (cmd.map (stringAt line (nulterminate line cmd (line ++ [nul])))).WellFormed ∧
      (cmd.map (stringAt line (nulterminate line cmd (line ++ [nul])))).words.Perm
        (wordsOf line) := by
  refine ⟨Cmd.wellFormed_map _ h.shape, ?_⟩
  rw [Cmd.words_map, List.map_congr_left fun w hw => stringAt_nulterminate hnul h.cuts hw]
  have hwords := h.skip.words
  rw [hs] at hwords
  rwa [show wordsOf [] = [] from fields_nil _, List.append_nil] at hwords

/-- **What the parser accepts.**  Every line is refused with a message of the source, or it is
turned into a well-formed command whose words are the words of the line, each one once and as
it stands there. -/
theorem parsecmd_accepts (line : List Char) (hnul : nul ∉ line) :
    (∃ t, parsecmd line = .ok t ∧ t.WellFormed ∧ t.words.Perm (wordsOf line)) ∨
      ∃ e, parsecmd line = .error e ∧ e ≠ .timeout ∧ e ≠ .parseblock := by
  have hline := (parses line _).parseline line List.suffix_rfl (le_refl (4 * line.length + 4))
  rw [parsecmd]
  cases hparse : parseline (4 * line.length + 4) line with
  | error e =>
    rw [hparse] at hline
    exact Or.inr ⟨e, rfl, hline.1, hline.2⟩
  | ok r =>
    rw [hparse] at hline
    obtain ⟨cmd, s⟩ := r
    rw [ok_bind]
    by_cases hs : skip s = []
    · refine Or.inl ⟨_, ?_, parsecmd_of_parsed hline.1 hnul hs⟩
      simp only [peek_snd, hs, ne_eq, not_true_eq_false, if_false]
      rfl
    · refine Or.inr ⟨.syntaxError, ?_, by decide, by decide⟩
      simp only [peek_snd, ne_eq, hs, not_false_eq_true, if_true]

theorem parsecmd_accepts_pipe :
    (∃ t, parsecmd "ls -l|(wc>x)&".toList = .ok t ∧ t.WellFormed ∧
      t.words.Perm (wordsOf "ls -l|(wc>x)&".toList)) ∨
      ∃ e, parsecmd "ls -l|(wc>x)&".toList = .error e ∧ e ≠ .timeout ∧ e ≠ .parseblock :=
  parsecmd_accepts "ls -l|(wc>x)&".toList (by decide)

end Sh
end Xv6
end SystemsProjects

import SystemsProjects.Xv6.ShellAccepts

/-!
# Every well-formed command can be typed

`print` writes a command as a line, with each operand of an operator in parentheses, so that
the line does not depend on the precedence of the operators.  `parsecmd_print` is the round
trip: the parser makes the same command of that line, words, modes, descriptors and all.  With
`parsecmd_accepts` it says that the commands that the shell can be made to run are the
well-formed ones.

The proof is an induction over the command.  The rules for the functions of the parser come
first; each says what the function does with a text that begins in a certain way, when it is
known what the functions that it calls do.
-/

namespace SystemsProjects
namespace Xv6
namespace Sh

open Lib

/-! ## Printing -/

/-- A command as a line. -/
def print : Cmd (List Char) → List Char
  | .exec argv => argv.flatMap (· ++ [' '])
  | .redir cmd file mode _ =>
      '(' :: print cmd ++ ')' :: (if mode = rdonly then '<' else '>') :: file
  | .pipe left right => '(' :: print left ++ ')' :: '|' :: '(' :: print right ++ [')']
  | .list left right => '(' :: print left ++ ')' :: ';' :: '(' :: print right ++ [')']
  | .back cmd => '(' :: print cmd ++ [')', '&']

variable {s r rest after : List Char} {c : Char} {toks w : List Char} {cmd right : Cmd Word}
  {n : ℕ}

/-- A text that does not begin with white space. -/
def Tight (s : List Char) : Prop := skip s = s

/-- The end of the line, or a closing parenthesis. -/
def Stop (rest : List Char) : Prop := rest = [] ∨ ∃ r, rest = ')' :: r

theorem tight_cons (h : c ∉ whitespace) (r : List Char) : Tight (c :: r) :=
  List.dropWhile_cons_of_neg (by simpa using h)

theorem found_cons (h : c ∉ whitespace) (r toks : List Char) :
    found (c :: r) toks = decide (c ∈ toks) := by
  rw [found, tight_cons h]
  rfl

theorem Stop.tight (h : Stop rest) : Tight rest := by
  rcases h with rfl | ⟨r, rfl⟩
  · rfl
  · exact tight_cons (by decide) r

theorem Stop.not_found (h : Stop rest) (htoks : ')' ∉ toks) : found rest toks = false := by
  rcases h with rfl | ⟨r, rfl⟩
  · rfl
  · rw [found_cons (by decide)]
    exact decide_eq_false htoks

theorem ordinary_not_mem (h : ordinary c = true) : c ∉ whitespace ∧ c ∉ symbols := by
  simpa [ordinary] using h

theorem IsWord.exists_cons (h : IsWord w) :
    ∃ c r, w = c :: r ∧ c ∉ whitespace ∧ c ∉ symbols := by
  cases w with
  | nil => exact absurd rfl h.1
  | cons c r => exact ⟨c, r, rfl, ordinary_not_mem (h.2 c List.mem_cons_self).1⟩

theorem IsWord.tight (h : IsWord w) (r : List Char) : Tight (w ++ r) := by
  obtain ⟨c, w, rfl, hc, -⟩ := h.exists_cons
  exact tight_cons hc _

/-- A word does not begin with a symbol. -/
theorem IsWord.not_found (h : IsWord w) (htoks : toks ⊆ symbols) (r : List Char) :
    found (w ++ r) toks = false := by
  obtain ⟨c, w, rfl, hc, hc'⟩ := h.exists_cons
  rw [List.cons_append, found_cons hc]
  exact decide_eq_false fun hmem => hc' (htoks hmem)

/-- The words of a simple command and what follows them. -/
theorem start_words {argv : List (List Char)} (hs : Stop rest) (hargv : ∀ w ∈ argv, IsWord w) :
    Tight (argv.flatMap (· ++ [' ']) ++ rest) ∧
      ∀ toks, toks ⊆ symbols → ')' ∉ toks →
        found (argv.flatMap (· ++ [' ']) ++ rest) toks = false := by
  cases argv with
  | nil => exact ⟨hs.tight, fun toks _ hclose => hs.not_found hclose⟩
  | cons w argv =>
    have hw := hargv w List.mem_cons_self
    rw [List.flatMap_cons, List.append_assoc, List.append_assoc]
    exact ⟨hw.tight _, fun toks htoks _ => hw.not_found htoks _⟩

/-! ## Tokens -/

/-- A symbol other than `>`. -/
theorem gettoken_cons (hc : c ∈ symbols) (hmore : c ≠ '>') (r : List Char) :
    gettoken (c :: r) = (c, ⟨c :: r, r⟩, skip r) := by
  have hspace : c ∉ whitespace := fun h => by
    simp only [symbols, List.mem_cons, List.not_mem_nil, or_false] at hc
    rcases hc with rfl | rfl | rfl | rfl | rfl | rfl | rfl <;> exact absurd h (by decide)
  have hlex : lex (c :: r) = (c, r) := by
    unfold lex
    split
    · rename_i heq
      cases heq
    · rename_i heq
      exact absurd (List.cons.inj heq).1 hmore
    · rename_i heq
      obtain ⟨rfl, rfl⟩ := List.cons.inj heq
      rw [if_pos hc]
  rw [gettoken, tight_cons hspace, hlex]

/-- One `>`. -/
theorem gettoken_more (hw : IsWord w) (r : List Char) :
    gettoken ('>' :: (w ++ r)) = ('>', ⟨'>' :: (w ++ r), w ++ r⟩, skip (w ++ r)) := by
  obtain ⟨c, w, rfl, -, hc⟩ := hw.exists_cons
  have hlex : lex ('>' :: (c :: w ++ r)) = ('>', c :: w ++ r) := by
    unfold lex
    split
    · rename_i heq
      cases heq
    · rename_i heq
      have := (List.cons.inj (List.cons.inj heq).2).1
      rw [this] at hc
      exact absurd (by decide) hc
    · rename_i heq
      obtain ⟨rfl, rfl⟩ := List.cons.inj heq
      rfl
  rw [gettoken, tight_cons (by decide), hlex]

/-- A word, up to a character that is not ordinary. -/
theorem gettoken_append (hw : IsWord w) (hr : ∀ c ∈ r.head?, ordinary c = false) :
    gettoken (w ++ r) = ('a', ⟨w ++ r, r⟩, skip r) := by
  have hdrop : (w ++ r).dropWhile ordinary = r := by
    rw [List.dropWhile_append_of_pos fun c hc => (hw.2 c hc).1]
    cases r with
    | nil => rfl
    | cons c r => exact List.dropWhile_cons_of_neg (by rw [hr c rfl]; exact Bool.false_ne_true)
  obtain ⟨c, w, rfl, hspace, hc⟩ := hw.exists_cons
  have hlex : lex (c :: w ++ r) = ('a', r) := by
    rw [List.cons_append] at hdrop ⊢
    unfold lex
    split
    · rename_i heq
      cases heq
    · rename_i heq
      rw [(List.cons.inj heq).1] at hc
      exact absurd (by decide) hc
    · rename_i heq
      obtain ⟨rfl, rfl⟩ := List.cons.inj heq
      rw [if_neg hc, hdrop]
  rw [gettoken, List.cons_append, tight_cons hspace, ← List.cons_append, hlex]

/-! ## Rules for the parser -/

theorem peek_eq (h : Tight s) (toks : List Char) : peek s toks = (found s toks, s) := by
  rw [peek, h]

/-- No redirection follows. -/
theorem parseredirs_none (h : Tight s) (hnone : found s ['<', '>'] = false) :
    parseredirs cmd s = .ok (cmd, s) := by
  refine loop_of_leave ?_
  simp only [redirBody, peek_eq h, hnone, Bool.false_eq_true, if_false]

/-- One redirection, by `<` or by `>`. -/
theorem parseredirs_one {tok : Char} {mode fd : ℕ}
    (htok : tok = '<' ∧ mode = rdonly ∧ fd = 0 ∨ tok = '>' ∧ mode = wronlyCreate ∧ fd = 1)
    (hw : IsWord w) (hs : Stop rest) :
    parseredirs cmd (tok :: (w ++ rest)) =
      .ok (.redir cmd ⟨w ++ rest, rest⟩ mode fd, rest) := by
  have hends : ∀ c ∈ rest.head?, ordinary c = false := by
    rcases hs with rfl | ⟨r, rfl⟩
    · exact fun c hc => by cases hc
    · intro c hc
      rw [← Option.some.inj hc]
      decide
  have htight : Tight (w ++ rest) := hw.tight rest
  have hword := gettoken_append hw hends
  rw [hs.tight] at hword
  have hbody : redirBody (cmd, tok :: (w ++ rest)) =
      .ok (.inl (.redir cmd ⟨w ++ rest, rest⟩ mode fd, rest)) := by
    rcases htok with ⟨rfl, rfl, rfl⟩ | ⟨rfl, rfl, rfl⟩
    · have hless := gettoken_cons (c := '<') (by decide) (by decide) (w ++ rest)
      rw [htight] at hless
      simp only [redirBody, peek_eq (tight_cons (c := '<') (by decide) _), hless, hword,
        found_cons (c := '<') (by decide), ne_eq, not_true_eq_false, if_false]
      rfl
    · have hmore := gettoken_more hw rest
      rw [htight] at hmore
      simp only [redirBody, peek_eq (tight_cons (c := '>') (by decide) _), hmore, hword,
        found_cons (c := '>') (by decide), ne_eq, not_true_eq_false, if_false]
      rfl
  rw [parseredirs, loop_of_continue hbody, List.length_cons]
  refine loop_of_leave ?_
  simp only [redirBody, peek_eq hs.tight, hs.not_found (show ')' ∉ ['<', '>'] by decide),
    Bool.false_eq_true, if_false]

/-- A parenthesised line, up to the redirections behind it. -/
theorem parseexec_block (hs : Tight s) (hline : parseline n s = .ok (cmd, ')' :: after)) :
    parseexec (n + 2) ('(' :: s) = parseredirs cmd (skip after) := by
  have hopen := gettoken_cons (c := '(') (by decide) (by decide) s
  have hclose := gettoken_cons (c := ')') (by decide) (by decide) after
  rw [hs] at hopen
  rw [parseexec]
  simp only [peek_eq (tight_cons (c := '(') (by decide) s), found_cons (c := '(') (by decide)]
  rw [if_pos (by decide), parseblock]
  simp only [peek_eq (tight_cons (c := '(') (by decide) s), found_cons (c := '(') (by decide)]
  rw [if_neg (by decide), hopen]
  simp only [hline, ok_bind, peek_eq (tight_cons (c := ')') (by decide) after),
    found_cons (c := ')') (by decide)]
  rw [if_neg (by decide), hclose]

/-- A command that no `|` follows. -/
theorem parsepipe_one (h : parseexec n s = .ok (cmd, after)) (htight : Tight after)
    (hnone : found after ['|'] = false) : parsepipe (n + 1) s = .ok (cmd, after) := by
  rw [parsepipe, h, ok_bind]
  simp only [peek_eq htight, hnone, Bool.false_eq_true, if_false]
  rfl

/-- Two commands with a `|` between them. -/
theorem parsepipe_two (h : parseexec n s = .ok (cmd, '|' :: r)) (hr : Tight r)
    (hright : parsepipe n r = .ok (right, after)) :
    parsepipe (n + 1) s = .ok (.pipe cmd right, after) := by
  have hbar := gettoken_cons (c := '|') (by decide) (by decide) r
  rw [hr] at hbar
  rw [parsepipe, h, ok_bind]
  simp only [peek_eq (tight_cons (c := '|') (by decide) r), found_cons (c := '|') (by decide)]
  rw [if_pos (by decide), hbar]
  simp only [hright, ok_bind]
  rfl

/-- No `&` follows. -/
theorem backLoop_none (htight : Tight s) (hnone : found s ['&'] = false) :
    loop .timeout backBody (s.length + 1) (cmd, s) = .ok (cmd, s) := by
  refine loop_of_leave ?_
  simp only [backBody, peek_eq htight, hnone, Bool.false_eq_true, if_false]

/-- A pipe that neither `&` nor `;` follows. -/
theorem parseline_one (h : parsepipe n s = .ok (cmd, rest)) (hs : Stop rest) :
    parseline (n + 1) s = .ok (cmd, rest) := by
  rw [parseline, h, ok_bind]
  simp only [backLoop_none hs.tight (hs.not_found (by decide)), ok_bind, peek_eq hs.tight,
    hs.not_found (show ')' ∉ [';'] by decide), Bool.false_eq_true, if_false]
  rfl

/-- A pipe and a line with a `;` between them. -/
theorem parseline_two (h : parsepipe n s = .ok (cmd, ';' :: r)) (hr : Tight r)
    (hright : parseline n r = .ok (right, after)) :
    parseline (n + 1) s = .ok (.list cmd right, after) := by
  have hsemi := gettoken_cons (c := ';') (by decide) (by decide) r
  have htight : Tight (';' :: r) := tight_cons (by decide) r
  have hback : found (';' :: r) ['&'] = false := by
    rw [found_cons (by decide)]
    rfl
  rw [hr] at hsemi
  rw [parseline, h, ok_bind]
  simp only [backLoop_none htight hback, ok_bind, peek_eq htight,
    found_cons (c := ';') (by decide)]
  rw [if_pos (by decide), hsemi]
  simp only [hright, ok_bind]
  rfl

/-- A pipe with a `&` behind it. -/
theorem parseline_back (h : parsepipe n s = .ok (cmd, '&' :: rest)) (hs : Stop rest) :
    parseline (n + 1) s = .ok (.back cmd, rest) := by
  have hamp := gettoken_cons (c := '&') (by decide) (by decide) rest
  rw [hs.tight] at hamp
  have hbody : backBody (cmd, '&' :: rest) = .ok (.inl (.back cmd, rest)) := by
    simp only [backBody, peek_eq (tight_cons (c := '&') (by decide) rest),
      found_cons (c := '&') (by decide)]
    rw [if_pos (by decide), hamp]
  have hloop : loop .timeout backBody (('&' :: rest).length + 1) (cmd, '&' :: rest) =
      .ok (.back cmd, rest) := by
    rw [loop_of_continue hbody]
    exact backLoop_none hs.tight (hs.not_found (by decide))
  rw [parseline, h, ok_bind]
  simp only [hloop, ok_bind, peek_eq hs.tight, hs.not_found (show ')' ∉ [';'] by decide),
    Bool.false_eq_true, if_false]
  rfl

/-! ## Simple commands -/

/-- The words of a simple command, up to the end of it. -/
theorem execLoop_words (hs : Stop rest) (argv : List (List Char)) :
    ∀ (words : List Word) (fuel : ℕ), (∀ w ∈ argv, IsWord w) →
      words.length + argv.length < maxArgs → argv.length < fuel →
      ∃ words', loop .timeout execBody fuel
          (.exec words, words.length, argv.flatMap (· ++ [' ']) ++ rest) =
            .ok (.exec (words ++ words'), rest) ∧ words'.map Word.text = argv := by
  induction argv with
  | nil =>
    intro words fuel _ _ hfuel
    obtain ⟨fuel, rfl⟩ := Nat.exists_eq_succ_of_ne_zero (Nat.ne_of_gt hfuel)
    refine ⟨[], loop_of_leave ?_, rfl⟩
    rw [List.flatMap_nil, List.nil_append, List.append_nil]
    rcases hs with rfl | ⟨r, rfl⟩
    · rfl
    · simp only [execBody, peek_eq (tight_cons (c := ')') (by decide) r),
        found_cons (c := ')') (by decide)]
      rw [if_pos (by decide)]
  | cons w argv ih =>
    intro words fuel hargv hmax hfuel
    obtain ⟨fuel, rfl⟩ := Nat.exists_eq_succ_of_ne_zero (Nat.ne_of_gt (Nat.zero_lt_of_lt hfuel))
    rw [List.length_cons] at hmax hfuel
    have hw := hargv w List.mem_cons_self
    obtain ⟨more, hmore⟩ : ∃ more, argv.flatMap (· ++ [' ']) ++ rest = more := ⟨_, rfl⟩
    obtain ⟨htight, hmore'⟩ := start_words hs fun v hv => hargv v (List.mem_cons_of_mem w hv)
    rw [hmore] at htight hmore'
    have hnone := hmore' ['<', '>'] (by decide) (by decide)
    have htext : (w :: argv).flatMap (· ++ [' ']) ++ rest = w ++ ' ' :: more := by
      rw [List.flatMap_cons, ← hmore, List.append_assoc, List.append_assoc]
      rfl
    have hword : gettoken (w ++ ' ' :: more) = ('a', ⟨w ++ ' ' :: more, ' ' :: more⟩, more) := by
      have hskip : skip (' ' :: more) = more :=
        (List.dropWhile_cons_of_pos (by decide)).trans htight
      rw [gettoken_append hw (fun c hc => by rw [← Option.some.inj hc]; decide), hskip]
    have hbody : execBody (.exec words, words.length, w ++ ' ' :: more) =
        .ok (.inl (.exec (words ++ [⟨w ++ ' ' :: more, ' ' :: more⟩]), words.length + 1,
          more)) := by
      have hstart := hw.tight (' ' :: more)
      have hfound := hw.not_found (show ['|', ')', '&', ';'] ⊆ symbols by decide) (' ' :: more)
      simp only [execBody, peek_eq hstart, hfound, Bool.false_eq_true, if_false, hword]
      rw [if_neg (by decide), if_neg (by decide), if_neg (by omega), Cmd.addArg,
        parseredirs_none htight hnone, ok_bind]
      rfl
    obtain ⟨words', hloop, hwords'⟩ := ih (words ++ [⟨w ++ ' ' :: more, ' ' :: more⟩]) fuel
      (fun v hv => hargv v (List.mem_cons_of_mem _ hv))
      (by rw [List.length_append, List.length_singleton]; omega) (by omega)
    refine ⟨⟨w ++ ' ' :: more, ' ' :: more⟩ :: words', ?_, ?_⟩
    · rw [htext, loop_of_continue hbody]
      rw [hmore, List.length_append, List.length_singleton, List.append_assoc] at hloop
      exact hloop
    · rw [List.map_cons, hwords', Word.text_eq rfl]

/-- A simple command. -/
theorem parseexec_words {argv : List (List Char)} (hs : Stop rest)
    (hargv : ∀ w ∈ argv, IsWord w) (hmax : argv.length < maxArgs) :
    ∃ words, parseexec (n + 1) (argv.flatMap (· ++ [' ']) ++ rest) = .ok (.exec words, rest) ∧
      words.map Word.text = argv := by
  obtain ⟨text, htext⟩ : ∃ text, argv.flatMap (· ++ [' ']) ++ rest = text := ⟨_, rfl⟩
  have hlen : argv.length < text.length + 1 := by
    rw [← htext]
    clear hmax hargv htext
    induction argv with
    | nil => exact Nat.succ_pos _
    | cons w argv ih =>
      simp only [List.flatMap_cons, List.length_cons, List.length_append] at ih ⊢
      omega
  obtain ⟨htight, hnone⟩ := start_words hs hargv
  rw [htext] at htight hnone
  obtain ⟨words, hloop, hwords⟩ := execLoop_words hs argv [] (text.length + 1) hargv
    (by rwa [List.length_nil, Nat.zero_add]) hlen
  rw [htext, List.nil_append] at hloop
  refine ⟨words, ?_, hwords⟩
  rw [htext, parseexec]
  simp only [peek_eq htight, hnone ['('] (by decide) (by decide), Bool.false_eq_true, if_false,
    parseredirs_none htight (hnone ['<', '>'] (by decide) (by decide)), ok_bind]
  exact hloop

/-! ## The round trip -/

/-- A printed command does not begin with white space. -/
theorem tight_print {t : Cmd (List Char)} (hwords : ∀ w ∈ t.words, IsWord w) (hs : Stop rest) :
    Tight (print t ++ rest) := by
  cases t with
  | exec argv => exact (start_words hs hwords).1
  | redir cmd file mode fd => exact tight_cons (by decide) _
  | pipe left right => exact tight_cons (by decide) _
  | list left right => exact tight_cons (by decide) _
  | back cmd => exact tight_cons (by decide) _

/-- What the round trip says of a command, in front of anything that ends a line. -/
def Prints (t : Cmd (List Char)) : Prop :=
  ∀ (n : ℕ) (rest : List Char), Stop rest → 4 * (print t ++ rest).length + 4 ≤ n →
    ∃ cmd, parseline n (print t ++ rest) = .ok (cmd, rest) ∧ cmd.map Word.text = t

/-- A printed command in parentheses. -/
theorem Prints.block {t : Cmd (List Char)} (h : Prints t) (hwords : ∀ w ∈ t.words, IsWord w)
    (hn : 4 * (print t ++ ')' :: after).length + 4 ≤ n) :
    ∃ cmd, parseexec (n + 2) ('(' :: (print t ++ ')' :: after)) =
      parseredirs cmd (skip after) ∧ cmd.map Word.text = t := by
  have hstop : Stop (')' :: after) := Or.inr ⟨after, rfl⟩
  obtain ⟨cmd, hline, hcmd⟩ := h n (')' :: after) hstop hn
  exact ⟨cmd, parseexec_block (tight_print hwords hstop) hline, hcmd⟩

/-- A printed command in parentheses, with no redirection behind it. -/
theorem Prints.block_none {t : Cmd (List Char)} (h : Prints t)
    (hwords : ∀ w ∈ t.words, IsWord w) (htight : Tight after)
    (hnone : found after ['<', '>'] = false)
    (hn : 4 * (print t ++ ')' :: after).length + 4 ≤ n) :
    ∃ cmd, parseexec (n + 2) ('(' :: (print t ++ ')' :: after)) = .ok (cmd, after) ∧
      cmd.map Word.text = t := by
  obtain ⟨cmd, hexec, hcmd⟩ := h.block hwords hn
  refine ⟨cmd, hexec.trans ?_, hcmd⟩
  rw [htight]
  exact parseredirs_none htight hnone

/-- Enough fuel for four levels of the grammar. -/
theorem exists_fuel {k : ℕ} (h : k + 4 ≤ n) : ∃ m, n = m + 4 ∧ k ≤ m := ⟨n - 4, by omega, by omega⟩

theorem prints_exec {argv : List (List Char)} (hmax : argv.length < maxArgs)
    (hargv : ∀ w ∈ argv, IsWord w) : Prints (.exec argv) := by
  intro n rest hs hn
  obtain ⟨n, rfl, -⟩ := exists_fuel hn
  obtain ⟨words, hexec, hwords⟩ := parseexec_words (n := n + 1) hs hargv hmax
  refine ⟨.exec words, ?_, ?_⟩
  · exact parseline_one (parsepipe_one hexec hs.tight (hs.not_found (by decide))) hs
  · rw [Cmd.map, hwords]

theorem prints_redir {t : Cmd (List Char)} {file : List Char} {mode fd : ℕ} (h : Prints t)
    (hwords : ∀ w ∈ t.words, IsWord w) (hfile : IsWord file) (hmode : IsMode mode fd) :
    Prints (.redir t file mode fd) := by
  intro n rest hs hn
  obtain ⟨tok, htok⟩ : ∃ tok, (if mode = rdonly then '<' else '>') = tok := ⟨_, rfl⟩
  have hprint : print (.redir t file mode fd) ++ rest =
      '(' :: (print t ++ ')' :: tok :: (file ++ rest)) := by
    simp only [print, htok, List.cons_append, List.append_assoc]
  have hkind : tok = '<' ∧ mode = rdonly ∧ fd = 0 ∨
      tok = '>' ∧ mode = wronlyCreate ∧ fd = 1 := by
    rcases hmode with ⟨rfl, rfl⟩ | ⟨rfl, rfl⟩
    · exact Or.inl ⟨htok.symm, rfl, rfl⟩
    · exact Or.inr ⟨htok.symm, rfl, rfl⟩
  have hspace : tok ∉ whitespace := by
    rcases hkind with ⟨rfl, -⟩ | ⟨rfl, -⟩ <;> decide
  rw [hprint] at hn ⊢
  obtain ⟨n, rfl, hn⟩ := exists_fuel hn
  rw [List.length_cons] at hn
  obtain ⟨cmd, hexec, hcmd⟩ := h.block hwords (n := n) (by omega)
  rw [show skip (tok :: (file ++ rest)) = _ from tight_cons hspace _,
    parseredirs_one hkind hfile hs] at hexec
  refine ⟨_, parseline_one (parsepipe_one hexec hs.tight (hs.not_found (by decide))) hs, ?_⟩
  rw [Cmd.map, hcmd, Word.text_eq rfl]

theorem prints_pipe {l r : Cmd (List Char)} (hl : Prints l) (hr : Prints r)
    (hlw : ∀ w ∈ l.words, IsWord w) (hrw : ∀ w ∈ r.words, IsWord w) : Prints (.pipe l r) := by
  intro n rest hs hn
  have hprint : print (.pipe l r) ++ rest =
      '(' :: (print l ++ ')' :: '|' :: '(' :: (print r ++ ')' :: rest)) := by
    simp only [print, List.cons_append, List.append_assoc, List.nil_append]
  rw [hprint] at hn ⊢
  obtain ⟨n, rfl, hn⟩ := exists_fuel hn
  simp only [List.length_cons, List.length_append] at hn
  have hparen : Tight ('(' :: (print r ++ ')' :: rest)) := tight_cons (by decide) _
  have hbar : Tight ('|' :: '(' :: (print r ++ ')' :: rest)) := tight_cons (by decide) _
  obtain ⟨left, hleft, hlt⟩ := hl.block_none (n := n) hlw hbar
    (by rw [found_cons (by decide)]; rfl)
    (by simp only [List.length_cons, List.length_append]; omega)
  obtain ⟨m, rfl⟩ : ∃ m, n = m + 1 := ⟨n - 1, by omega⟩
  obtain ⟨right, hright, hrt⟩ := hr.block_none (n := m) hrw hs.tight (hs.not_found (by decide))
    (by simp only [List.length_cons, List.length_append]; omega)
  refine ⟨.pipe left right, ?_, ?_⟩
  · refine parseline_one (parsepipe_two hleft hparen ?_) hs
    exact parsepipe_one hright hs.tight (hs.not_found (by decide))
  · rw [Cmd.map, hlt, hrt]

theorem prints_list {l r : Cmd (List Char)} (hl : Prints l) (hr : Prints r)
    (hlw : ∀ w ∈ l.words, IsWord w) (hrw : ∀ w ∈ r.words, IsWord w) : Prints (.list l r) := by
  intro n rest hs hn
  have hprint : print (.list l r) ++ rest =
      '(' :: (print l ++ ')' :: ';' :: '(' :: (print r ++ ')' :: rest)) := by
    simp only [print, List.cons_append, List.append_assoc, List.nil_append]
  rw [hprint] at hn ⊢
  obtain ⟨n, rfl, hn⟩ := exists_fuel hn
  simp only [List.length_cons, List.length_append] at hn
  have hsemi : Tight (';' :: '(' :: (print r ++ ')' :: rest)) := tight_cons (by decide) _
  obtain ⟨left, hleft, hlt⟩ := hl.block_none (n := n) hlw hsemi
    (by rw [found_cons (by decide)]; rfl)
    (by simp only [List.length_cons, List.length_append]; omega)
  obtain ⟨m, rfl⟩ : ∃ m, n = m + 1 := ⟨n - 1, by omega⟩
  obtain ⟨right, hright, hrt⟩ := hr.block_none (n := m) hrw hs.tight (hs.not_found (by decide))
    (by simp only [List.length_cons, List.length_append]; omega)
  refine ⟨.list left right, ?_, ?_⟩
  · refine parseline_two (parsepipe_one hleft hsemi ?_) (tight_cons (by decide) _) ?_
    · rw [found_cons (by decide)]
      rfl
    · exact parseline_one (parsepipe_one hright hs.tight (hs.not_found (by decide))) hs
  · rw [Cmd.map, hlt, hrt]

theorem prints_back {t : Cmd (List Char)} (h : Prints t) (hwords : ∀ w ∈ t.words, IsWord w) :
    Prints (.back t) := by
  intro n rest hs hn
  have hprint : print (.back t) ++ rest = '(' :: (print t ++ ')' :: '&' :: rest) := by
    simp only [print, List.cons_append, List.append_assoc, List.nil_append]
  rw [hprint] at hn ⊢
  obtain ⟨n, rfl, hn⟩ := exists_fuel hn
  rw [List.length_cons] at hn
  have hamp : Tight ('&' :: rest) := tight_cons (by decide) _
  obtain ⟨cmd, hexec, hcmd⟩ := h.block_none (n := n) hwords hamp
    (by rw [found_cons (by decide)]; rfl) (by omega)
  refine ⟨.back cmd, parseline_back (parsepipe_one hexec hamp ?_) hs, ?_⟩
  · rw [found_cons (by decide)]
    rfl
  · rw [Cmd.map, hcmd]

/-- **Every well-formed command is parsed back**, by induction over the command. -/
theorem prints {t : Cmd (List Char)} (h : t.WellFormed) (hwords : ∀ w ∈ t.words, IsWord w) :
    Prints t := by
  induction t with
  | exec argv => exact prints_exec h hwords
  | redir cmd file mode fd ih =>
    have hcmd : ∀ w ∈ cmd.words, IsWord w := fun w hw => hwords w (List.mem_append_left _ hw)
    have hfile := hwords file (List.mem_append_right _ (List.mem_singleton_self file))
    exact prints_redir (ih h.1 hcmd) hcmd hfile h.2
  | pipe left right ihl ihr =>
    have hl : ∀ w ∈ left.words, IsWord w := fun w hw => hwords w (List.mem_append_left _ hw)
    have hr : ∀ w ∈ right.words, IsWord w := fun w hw => hwords w (List.mem_append_right _ hw)
    exact prints_pipe (ihl h.1 hl) (ihr h.2 hr) hl hr
  | list left right ihl ihr =>
    have hl : ∀ w ∈ left.words, IsWord w := fun w hw => hwords w (List.mem_append_left _ hw)
    have hr : ∀ w ∈ right.words, IsWord w := fun w hw => hwords w (List.mem_append_right _ hw)
    exact prints_list (ihl h.1 hl) (ihr h.2 hr) hl hr
  | back cmd ih => exact prints_back (ih h hwords) hwords

theorem nul_not_mem_print {t : Cmd (List Char)} (hwords : ∀ w ∈ t.words, IsWord w) :
    nul ∉ print t := by
  induction t with
  | exec argv =>
    intro hmem
    obtain ⟨w, hw, hmem⟩ := List.mem_flatMap.mp hmem
    rcases List.mem_append.mp hmem with hmem | hmem
    · exact ((hwords w hw).2 nul hmem).2 rfl
    · exact absurd (List.mem_singleton.mp hmem) (by decide)
  | redir cmd file mode fd ih =>
    have hcmd := ih fun w hw => hwords w (List.mem_append_left _ hw)
    have hfile := hwords file (List.mem_append_right _ (List.mem_singleton_self file))
    simp only [print, List.cons_append, List.mem_cons, List.mem_append, not_or]
    refine ⟨by decide, hcmd, by decide, ?_, fun hmem => (hfile.2 nul hmem).2 rfl⟩
    split <;> decide
  | pipe left right ihl ihr =>
    have hl := ihl fun w hw => hwords w (List.mem_append_left _ hw)
    have hr := ihr fun w hw => hwords w (List.mem_append_right _ hw)
    simp only [print, List.cons_append, List.mem_cons, List.mem_append, not_or]
    exact ⟨by decide, ⟨hl, by decide, by decide, by decide, hr⟩, by decide, List.not_mem_nil⟩
  | list left right ihl ihr =>
    have hl := ihl fun w hw => hwords w (List.mem_append_left _ hw)
    have hr := ihr fun w hw => hwords w (List.mem_append_right _ hw)
    simp only [print, List.cons_append, List.mem_cons, List.mem_append, not_or]
    exact ⟨by decide, ⟨hl, by decide, by decide, by decide, hr⟩, by decide, List.not_mem_nil⟩
  | back cmd ih =>
    simp only [print, List.cons_append, List.mem_cons, List.mem_append, not_or]
    exact ⟨by decide, ih hwords, by decide, by decide, List.not_mem_nil⟩

theorem Cmd.map_congr {V W : Type} {f g : V → W} {cmd : Cmd V}
    (h : ∀ w ∈ cmd.words, f w = g w) : cmd.map f = cmd.map g := by
  induction cmd with
  | exec argv => exact congrArg Cmd.exec (List.map_congr_left h)
  | redir cmd file mode fd ih =>
    rw [Cmd.map, Cmd.map, ih fun w hw => h w (List.mem_append_left _ hw),
      h file (List.mem_append_right _ (List.mem_singleton_self file))]
  | pipe left right ihl ihr =>
    rw [Cmd.map, Cmd.map, ihl fun w hw => h w (List.mem_append_left _ hw),
      ihr fun w hw => h w (List.mem_append_right _ hw)]
  | list left right ihl ihr =>
    rw [Cmd.map, Cmd.map, ihl fun w hw => h w (List.mem_append_left _ hw),
      ihr fun w hw => h w (List.mem_append_right _ hw)]
  | back cmd ih => rw [Cmd.map, Cmd.map, ih h]

/-- **The round trip.**  The line that a well-formed command is printed as is parsed to that
command. -/
theorem parsecmd_print (t : Cmd (List Char)) (h : t.WellFormed)
    (hwords : ∀ w ∈ t.words, IsWord w) : parsecmd (print t) = .ok t := by
  obtain ⟨cmd, hline, hcmd⟩ := prints h hwords (4 * (print t).length + 4) [] (Or.inl rfl)
    (by rw [List.append_nil])
  rw [List.append_nil] at hline
  have hparsed := (parses (print t) _).parseline (print t) List.suffix_rfl
    (le_refl (4 * (print t).length + 4))
  rw [hline] at hparsed
  have hstrings : cmd.map (stringAt (print t)
      (nulterminate (print t) cmd (print t ++ [nul]))) = t := by
    rw [← hcmd]
    refine Cmd.map_congr fun w hw => ?_
    rw [hcmd]
    exact stringAt_nulterminate (nul_not_mem_print hwords) hparsed.1.cuts hw
  rw [parsecmd, hline, ok_bind]
  simp only [peek_snd, show skip [] = [] from rfl, ne_eq, not_true_eq_false, if_false, hstrings]
  rfl

/-- `(a b) > c | d; e &` -/
def sample : Cmd (List Char) :=
  .list (.pipe (.redir (.exec [['a'], ['b']]) ['c'] wronlyCreate 1) (.exec [['d']]))
    (.back (.exec [['e']]))

theorem parsecmd_print_sample : parsecmd (print sample) = .ok sample :=
  parsecmd_print sample (by simp [sample, Cmd.WellFormed, IsMode, maxArgs])
    (by simp [sample, Cmd.words, IsWord, ordinary, whitespace, symbols, nul])

end Sh
end Xv6
end SystemsProjects

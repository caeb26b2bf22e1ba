import SystemsProjects.Lib.Loop

/-!
# The command parser of the shell

`sh.c` parses a command line by recursive descent: `parseline`, `parsepipe` and `parseexec` for
the three levels of the grammar, `parseblock` for a parenthesised line, and `parseredirs` behind
each of these.  The words of a command are not copied.  A command holds two pointers into the
line for each word, to its first character and to the character behind it, and when the whole
line has been parsed, `nulterminate` goes through the tree and writes a NUL at each of the
second ones.

A pointer into the line is written as the text from there to the end of the line.  The
functions stop with the message that the source passes to `panic`, and with `timeout` if the
fuel, which the source does not have, is used up.
-/

namespace SystemsProjects
namespace Xv6
namespace Sh

open Lib

/-! ## Commands -/

/-- `struct cmd`, with words of the type `W`. -/
inductive Cmd (W : Type) where
  | exec (argv : List W)
  | redir (cmd : Cmd W) (file : W) (mode fd : ℕ)
  | pipe (left right : Cmd W)
  | list (left right : Cmd W)
  | back (cmd : Cmd W)
  deriving DecidableEq

namespace Cmd

variable {V W : Type}

/-- The command with its words changed. -/
def map (f : V → W) : Cmd V → Cmd W
  | exec argv => exec (argv.map f)
  | redir cmd file mode fd => redir (cmd.map f) (f file) mode fd
  | pipe left right => pipe (left.map f) (right.map f)
  | list left right => list (left.map f) (right.map f)
  | back cmd => back (cmd.map f)

/-- The words of a command. -/
def words : Cmd W → List W
  | exec argv => argv
  | redir cmd file _ _ => cmd.words ++ [file]
  | pipe left right => left.words ++ right.words
  | list left right => left.words ++ right.words
  | back cmd => cmd.words

/-- `cmd->argv[argc] = q`, where `cmd` is the simple command inside of its redirections. -/
def addArg (w : W) : Cmd W → Cmd W
  | exec argv => exec (argv ++ [w])
  | redir cmd file mode fd => redir (cmd.addArg w) file mode fd
  | cmd => cmd

end Cmd

/-- `MAXARGS` -/
def maxArgs : ℕ := 10

/-- `O_RDONLY` -/
def rdonly : ℕ := 0

/-- `O_WRONLY|O_CREATE` -/
def wronlyCreate : ℕ := 0x201

/-- What stops the parser. -/
inductive Panic where
  | syntaxError
  | missingFile
  | parseblock
  | missingParen
  | tooManyArgs
  | timeout
  deriving DecidableEq, Repr

/-! ## Tokens -/

/-- `'\0'` -/
def nul : Char := Char.ofNat 0

/-- The characters between words. -/
def whitespace : List Char := [' ', '\t', '\r', '\n', Char.ofNat 11]

/-- The characters that are words of their own. -/
def symbols : List Char := ['<', '|', '>', '&', ';', '(', ')']

/-- A character of a word. -/
def ordinary (c : Char) : Bool := c ∉ whitespace ∧ c ∉ symbols

/-- Two pointers into the line. -/
structure Word where
  q : List Char
  eq : List Char
  deriving DecidableEq

/-- The characters from `q` up to `eq`. -/
def Word.text (w : Word) : List Char := w.q.take (w.q.length - w.eq.length)

/-- What is left behind the whitespace. -/
def skip (s : List Char) : List Char := s.dropWhile (· ∈ whitespace)

/-- `*s && strchr(toks, *s)`, behind the white space. -/
def found (s toks : List Char) : Bool := (skip s).head?.any (· ∈ toks)

/-- `peek`: whether the next character is one of `toks`, and `*ps`. -/
def peek (s toks : List Char) : Bool × List Char := (found s toks, skip s)

/-- The token at `q`, and the pointer behind it. -/
def lex : List Char → Char × List Char
  | [] => (nul, [])
  | '>' :: '>' :: s => ('+', s)
  | c :: s => if c ∈ symbols then (c, s) else ('a', (c :: s).dropWhile ordinary)

/-- `gettoken`: the token, its two pointers, and `*ps`. -/
def gettoken (s : List Char) : Char × Word × List Char :=
  ((lex (skip s)).1, ⟨skip s, (lex (skip s)).2⟩, skip (lex (skip s)).2)

/-! ## The parser -/

/-- The body of the loop of `parseredirs`. -/
def redirBody : Cmd Word × List Char →
    Except Panic (Cmd Word × List Char ⊕ Cmd Word × List Char)
  | (cmd, s) =>
    let (found, s) := peek s ['<', '>']
    if found then
      let (tok, _, s) := gettoken s
      let (tok', w, s) := gettoken s
      if tok' ≠ 'a' then
        .error .missingFile
      else if tok = '<' then
        .ok (.inl (.redir cmd w rdonly 0, s))
      else if tok = '>' ∨ tok = '+' then
        .ok (.inl (.redir cmd w wronlyCreate 1, s))
      else
        .ok (.inl (cmd, s))
    else
      .ok (.inr (cmd, s))

/-- The redirections that follow, around the command. -/
def parseredirs (cmd : Cmd Word) (s : List Char) : Except Panic (Cmd Word × List Char) :=
  loop .timeout redirBody (s.length + 1) (cmd, s)

/-- The body of the loop of `parseexec`, on `ret`, `argc` and `*ps`. -/
def execBody : Cmd Word × ℕ × List Char →
    Except Panic (Cmd Word × ℕ × List Char ⊕ Cmd Word × List Char)
  | (ret, argc, s) =>
    let (found, s) := peek s ['|', ')', '&', ';']
    if found then
      .ok (.inr (ret, s))
    else
      let (tok, w, s) := gettoken s
      if tok = nul then
        .ok (.inr (ret, s))
      else if tok ≠ 'a' then
        .error .syntaxError
      else if maxArgs ≤ argc + 1 then
        .error .tooManyArgs
      else do
        let (ret, s) ← parseredirs (ret.addArg w) s
        return .inl (ret, argc + 1, s)

/-- The body of the loop of `parseline`. -/
def backBody : Cmd Word × List Char →
    Except Panic (Cmd Word × List Char ⊕ Cmd Word × List Char)
  | (cmd, s) =>
    let (found, s) := peek s ['&']
    if found then
      let (_, _, s) := gettoken s
      .ok (.inl (.back cmd, s))
    else
      .ok (.inr (cmd, s))

mutual

/-- A pipe of commands, `&` behind it any number of times, and what follows a `;`. -/
def parseline : ℕ → List Char → Except Panic (Cmd Word × List Char)
  | 0, _ => .error .timeout
  | n + 1, s => do
    let (cmd, s) ← parsepipe n s
    let (cmd, s) ← loop .timeout backBody (s.length + 1) (cmd, s)
    let (found, s) := peek s [';']
    if found then
      let (_, _, s) := gettoken s
      let (right, s) ← parseline n s
      return (.list cmd right, s)
    else
      return (cmd, s)

/-- A command, and what follows a `|`. -/
def parsepipe : ℕ → List Char → Except Panic (Cmd Word × List Char)
  | 0, _ => .error .timeout
  | n + 1, s => do
    let (cmd, s) ← parseexec n s
    let (found, s) := peek s ['|']
    if found then
      let (_, _, s) := gettoken s
      let (right, s) ← parsepipe n s
      return (.pipe cmd right, s)
    else
      return (cmd, s)

/-- A block in parentheses, or the words and the redirections of a command. -/
def parseexec : ℕ → List Char → Except Panic (Cmd Word × List Char)
  | 0, _ => .error .timeout
  | n + 1, s => do
    let (found, s) := peek s ['(']
    if found then
      parseblock n s
    else
      let (ret, s) ← parseredirs (.exec []) s
      loop .timeout execBody (s.length + 1) (ret, 0, s)

/-- A line in parentheses, and the redirections behind it. -/
def parseblock : ℕ → List Char → Except Panic (Cmd Word × List Char)
  | 0, _ => .error .timeout
  | n + 1, s => do
    let (found, s) := peek s ['(']
    if !found then
      .error .parseblock
    else
      let (_, _, s) := gettoken s
      let (cmd, s) ← parseline n s
      let (found, s) := peek s [')']
      if !found then
        .error .missingParen
      else
        let (_, _, s) := gettoken s
        parseredirs cmd s

end

/-! ## The strings -/

/-- A NUL written at each of the places `eargv[i]`. -/
def cut (buf : List Char) (line : List Char) (words : List Word) : List Char :=
  words.foldl (fun buf w => buf.set (line.length - w.eq.length) nul) buf

/-- `nulterminate` on the buffer that holds the line. -/
def nulterminate (line : List Char) : Cmd Word → List Char → List Char
  | .exec argv, buf => cut buf line argv
  | .redir cmd file _ _, buf => cut (nulterminate line cmd buf) line [file]
  | .pipe left right, buf => nulterminate line right (nulterminate line left buf)
  | .list left right, buf => nulterminate line right (nulterminate line left buf)
  | .back cmd, buf => nulterminate line cmd buf

/-- The string that a word is when the buffer has been cut. -/
def stringAt (line buf : List Char) (w : Word) : List Char :=
  (buf.drop (line.length - w.q.length)).takeWhile (· ≠ nul)

/-- `parsecmd`: the command that `runcmd` gets, with its strings. -/
def parsecmd (line : List Char) : Except Panic (Cmd (List Char)) := do
  let (cmd, s) ← parseline (4 * line.length + 4) line
  let (_, s) := peek s []
  if s ≠ [] then
    .error .syntaxError
  else
    return cmd.map (stringAt line (nulterminate line cmd (line ++ [nul])))

end Sh
end Xv6
end SystemsProjects

import SystemsProjects.Lib.Exec
import SystemsProjects.Lib.Strtok

/-!
# The mini-shell: `shell.c`

`Assignment5_Shell/part1/shell.c` reads a line, splits it at `|`, splits the parts
into words, and runs a builtin, a program, or two of them with a pipe in between.

A process has the arrays of the program, its open descriptors, and the children
it has forked and not yet waited for.  What the operating system answers while a
line is run comes from outside, as a `System`.  A call that the C library does
not define, or a write behind the end of an array, stops the model with a
`Fault`.

The buffers `first` and `second` are locals of the loop body that keep their place
on the stack.  `first` is filled in every round before it is read; `second` is filled
only by a line with a second part, and what it holds is carried from one round to
the next, cut where `strtok` has put a NUL.  An argument array is the list of the
strings in front of its NULL.
-/

namespace SystemsProjects
namespace Shell

open Lib

/-- `BUFFER_SIZE`. -/
def bufferSize : ℕ := 80

/-- The rows of `commands`. -/
def historySize : ℕ := 128

/-- Why a process is left without a defined next step. -/
inductive Fault where
  /-- `strcpy` or `strcmp` is given NULL -/
  | nullArgument
  /-- `second` is read and no line has filled it -/
  | unfilled
  /-- a write behind the end of an array -/
  | overflow
  deriving DecidableEq, Repr

/-- What is printed. -/
inductive Message where
  /-- `"mini-shell> "` -/
  | prompt
  /-- `"The built-in commands are:\nexit\nhelp\ncd\n"` -/
  | help
  /-- `"Error: null\n"` -/
  | noDirectory
  /-- `"Invalid directory\n"` -/
  | invalidDirectory
  /-- `"History:\n"` -/
  | history
  /-- `"%s\n"`, a recorded command -/
  | command (name : CString)
  /-- `"Pipe error\n"` -/
  | pipeError
  /-- `"Fork error\n"` -/
  | forkError
  deriving DecidableEq

/-- What the operating system answers while one line is run: the descriptors of
`pipe` and the process ids of the first and the second `fork` (`none` for a
failure), whether `chdir` succeeds, and which of the children each `wait` finds. -/
structure System where
  pipe : Option (ℕ × ℕ)
  split1 : Option ℕ
  split2 : Option ℕ
  chdir : Bool
  wait1 : ℕ
  wait2 : ℕ
  deriving DecidableEq

/-- A process that runs the program. -/
structure Process where
  commands : ℕ → CString
  size : ℕ
  second : Option CString
  fds : Finset ℕ
  children : List ℕ
  output : List Message

/-- What a call leads to in the process that makes it. -/
inductive Outcome where
  /-- `exit(status)` -/
  | exit (status : ℤ)
  | running (s : Process)

namespace Process

/-- A message on the standard output. -/
def print (s : Process) (m : Message) : Process := { s with output := s.output ++ [m] }

/-- `close`; of a descriptor that is not open it does nothing. -/
def close (s : Process) (fd : ℕ) : Process := { s with fds := s.fds.erase fd }

/-- `dup2`; from a descriptor that is not open it does nothing. -/
def dup2 (s : Process) (fd fd' : ℕ) : Process :=
  if fd ∈ s.fds then { s with fds := insert fd' s.fds } else s

/-- The parent's side of a `fork` that succeeds. -/
def addChild (s : Process) (pid : ℕ) : Process := { s with children := pid :: s.children }

/-- The child's side: the same descriptors, no children. -/
def child (s : Process) : Process := { s with children := [] }

/-- `wait(NULL)`: one of the children is found, if there is any. -/
def wait (s : Process) (n : ℕ) : Process :=
  { s with children := s.children.eraseIdx (n % s.children.length) }

end Process

/-- The string behind a pointer that the code does not test. -/
def nonNull {α : Type} : Option α → Except Fault α
  | none => .error .nullArgument
  | some a => pure a

/-- `strcpy` into a buffer of `BUFFER_SIZE` bytes. -/
def strcpy (s : CString) : Except Fault CString :=
  if strlen s < bufferSize then pure s else .error .overflow

/-! ## Builtins -/

/-- `fun_ptr`, with the answers of the operating system. -/
abbrev FunPtr := List CString → System → Process → Outcome

/-- Prints the commands that the shell has. -/
def help : FunPtr := fun _ _ s => .running (s.print .help)

/-- Ends the shell. -/
def endShell : FunPtr := fun _ _ _ => .exit 1

/-- Changes to the directory of the first argument, and says so if it cannot. -/
def cd : FunPtr := fun args sys s =>
  match args[1]? with
  | none => .running (s.print .noDirectory)
  | some _ => .running (if sys.chdir then s else s.print .invalidDirectory)

/-- Prints the `size` names at the front of the array of commands. -/
def history : FunPtr := fun _ _ s =>
  .running ((List.range s.size).foldl (fun s j => s.print (.command (s.commands j)))
    (s.print .history))

/-- `"exit"` -/
def exitName : CString := ⟨[101, 120, 105, 116], by decide⟩

/-- `"help"` -/
def helpName : CString := ⟨[104, 101, 108, 112], by decide⟩

/-- `"cd"` -/
def cdName : CString := ⟨[99, 100], by decide⟩

/-- `"history"` -/
def historyName : CString := ⟨[104, 105, 115, 116, 111, 114, 121], by decide⟩

/-- The arrays `builtins` and `functions`. -/
def builtins : List (CString × FunPtr) :=
  [(exitName, endShell), (helpName, help), (cdName, cd), (historyName, history)]

/-- The loop of `checkBuiltins` and of `handleInputs`: `none` when no builtin has the
name of the command. -/
def findBuiltin (args : List CString) :
    List (CString × FunPtr) → Except Fault (Option FunPtr)
  | [] => pure none
  | (name, function) :: rest => do
    if strcmp (← nonNull args.head?) name = 0 then pure (some function)
    else findBuiltin args rest

/-- The builtin runs as soon as it is found. -/
def checkBuiltins (args : List CString) (sys : System) (s : Process) :
    Except Fault (Option Outcome) := do
  match ← findBuiltin args builtins with
  | none => pure none
  | some function => pure (some (function args sys s))

/-! ## Commands -/

/-- `fork`, and `wait` in the parent, also when the `fork` has failed.  The child
becomes another program or exits. -/
def otherCommands (sys : System) (s : Process) : Process :=
  match sys.split1 with
  | none => s.wait sys.wait1
  | some pid => (s.addChild pid).wait sys.wait1

/-- A line without a pipe: a command of the shell, or a child that becomes the program. -/
def handleInputs (args : List CString) (sys : System) (s : Process) :
    Except Fault Outcome := do
  match ← checkBuiltins args sys s with
  | none => pure (.running (otherCommands sys s))
  | some o => pure o

/-- The first child: it writes to the pipe, and whatever it runs, it ends. -/
def firstChild (fd : ℕ × ℕ) (args1 : List CString) (sys : System) (s : Process) :
    Except Fault Unit := do
  let s := ((s.close fd.1).dup2 fd.2 1).close fd.2
  let _ ← checkBuiltins args1 sys s
  pure ()

/-- The second child: it reads from the pipe. -/
def secondChild (fd : ℕ × ℕ) (args2 : List CString) (sys : System) (s : Process) :
    Except Fault Unit := do
  let s := (s.dup2 fd.1 0).close fd.1
  let _ ← checkBuiltins args2 sys s
  pure ()

/-- A line with a pipe: a child for each of its sides, if there is a pipe. -/
def handleTwoInputs (args1 args2 : List CString) (sys : System) (s : Process) :
    Except Fault Process :=
  match sys.pipe with
  | none => pure (s.print .pipeError)
  | some fd => do
    let s := { s with fds := insert fd.1 (insert fd.2 s.fds) }
    match sys.split1 with
    | none => pure (s.print .forkError)
    | some pid => do
      firstChild fd args1 sys s.child
      let s := s.addChild pid
      match sys.split2 with
      | none => pure (s.print .forkError)
      | some pid => do
        let s := s.close fd.2
        secondChild fd args2 sys s.child
        let s := s.addChild pid
        pure ((s.wait sys.wait1).wait sys.wait2)

/-! ## The loop of `main` -/

/-- `"|"` -/
def isPipe (b : UInt8) : Bool := b = 124

/-- `" \t\n"` -/
def isBlank (b : UInt8) : Bool := b = 32 || b = 9 || b = 10

/-- The words of a buffer, and the buffer behind the last `strtok`.  There are
`BUFFER_SIZE` places for the words and the NULL. -/
def tokenize (input : CString) : Except Fault (List CString × CString) :=
  let args := tokens isBlank input
  if args.length < bufferSize then pure (args, afterStrtok isBlank input)
  else .error .overflow

/-- `strcpy(commands[size++], args[0]); size = size % 128;` -/
def record (args : List CString) (s : Process) : Except Fault Process := do
  let name ← nonNull args.head?
  let name ← strcpy name
  if s.size < historySize then
    pure { s with
      commands := Function.update s.commands s.size name
      size := (s.size + 1) % historySize }
  else .error .overflow

/-- One round of the loop of `main`, with `inputs` the line that `fgets` has read. -/
def round (inputs : CString) (sys : System) (s : Process) : Except Fault Outcome := do
  let s := s.print .prompt
  let (split, saved) ← nonNull (strtok isPipe inputs)
  let first ← strcpy split
  let split := (strtok isPipe saved).map Prod.fst
  let second ← match split with
    | none => pure s.second
    | some split => do pure (some (← strcpy split))
  let (args1, _) ← tokenize first
  let (args2, second) ← match second with
    | none => Except.error .unfilled
    | some second => tokenize second
  let s ← record args1 { s with second := some second }
  match split with
  | none => handleInputs args1 sys s
  | some _ => do
    let s ← record args2 s
    pure (.running (← handleTwoInputs args1 args2 sys s))

/-- A line that `fgets(inputs, 80, stdin)` can deliver. -/
structure Line where
  inputs : CString
  nonempty : inputs.bytes ≠ []
  short : strlen inputs ≤ 79
  newline : 10 ∉ inputs.bytes.dropLast

/-- The loop of `main` on the lines that are typed, one after the other. -/
def session : Process → List (Line × System) → Except Fault Outcome
  | s, [] => pure (.running s)
  | s, (line, sys) :: rest => do
    match ← round line.inputs sys s with
    | .exit status => pure (.exit status)
    | .running s => session s rest

/-- A process about to print its first prompt. -/
structure Process.Start (s : Process) : Prop where
  commands : ∀ j, (s.commands j).bytes = []
  size : s.size = 0
  second : s.second = none
  children : s.children = []
  output : s.output = []

end Shell
end SystemsProjects

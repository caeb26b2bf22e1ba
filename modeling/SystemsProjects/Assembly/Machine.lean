import SystemsProjects.Lib.ByteMemory
import SystemsProjects.Lib.Loop

/-!
# The calculator `function.s`

The program reads three lines, the choice and two numerals, and prints a sum or a difference.
Here are the registers and the memory that it uses, the two system calls, and its subroutines,
instruction by instruction.

The cells of the data segment are declared one byte, four bytes or eight bytes wide, and all of
them are accessed by eight bytes: `vala` together with `spacer2`, `valb` with `spacer3`, `answer`
with `spacer4`, and eight bytes at each byte of `final` and behind it, where `n` is.  No access
leaves the eighty bytes from `choice` on.

The stack holds return addresses only and is left out.
-/

namespace SystemsProjects
namespace Assembly

open Lib

/-- Why there is no next instruction. -/
inductive Fault where
  /-- the exception of a division -/
  | divide
  /-- a loop that does not end -/
  | diverges
  deriving DecidableEq, Repr

/-! ## The machine -/

/-- The registers, the memory, and the standard input and output. -/
structure Machine where
  rax : BitVec 64
  rdi : BitVec 64
  rsi : BitVec 64
  rdx : BitVec 64
  r8 : BitVec 64
  r11 : BitVec 64
  r12 : BitVec 64
  r14 : BitVec 64
  r15 : BitVec 64
  bytes : ℕ → UInt8
  /-- what the next reads find -/
  input : List (List UInt8)
  output : List UInt8

namespace Addr

/-- The text of the menu. -/
def welcomeStr : ℕ := 1024
/-- A minus sign. -/
def negativeString : ℕ := 1066
/-- A newline. -/
def endlineString : ℕ := 1068

/-- The number of the operation, as it was typed. -/
def choice : ℕ := 4096
/-- The first operand, as it was typed. -/
def a : ℕ := 4104
/-- The second operand, as it was typed. -/
def b : ℕ := 4112
/-- The value of the first operand. -/
def vala : ℕ := 4124
/-- The value of the second operand. -/
def valb : ℕ := 4132
/-- The result. -/
def answer : ℕ := 4140
/-- The digits of the result, the last one first. -/
def final : ℕ := 4148
/-- Where a line is read to. -/
def n : ℕ := 4156

end Addr

/-- "Enter 1 for addition, 2 for subtraction:\n" and the terminator. -/
def welcome : List UInt8 :=
  [69, 110, 116, 101, 114, 32, 49, 32, 102, 111, 114, 32, 97, 100, 100, 105, 116, 105, 111, 110,
    44, 32, 50, 32, 102, 111, 114, 32, 115, 117, 98, 116, 114, 97, 99, 116, 105, 111, 110, 58,
    10, 0]

namespace Machine

/-- The eight bytes at `x`. -/
def quad (m : Machine) (x : ℕ) : BitVec 64 := BitVec.ofNat 64 (value m.bytes x 8)

/-- Eight bytes of memory written. -/
def setQuad (m : Machine) (x : ℕ) (v : BitVec 64) : Machine :=
  { m with bytes := put m.bytes x 8 v.toNat }

/-- The lowest byte of `%rdi`. -/
def dil (m : Machine) : BitVec 8 := m.rdi.setWidth 8

/-- The lowest byte of `rdi` written. -/
def setDil (m : Machine) (c : BitVec 8) : Machine :=
  { m with rdi := (m.rdi >>> 8) <<< 8 ||| c.setWidth 64 }

/-- `idivq`: the signed number in `%rdx` and `%rax` is divided. -/
def idivq (m : Machine) (divisor : BitVec 64) : Except Fault Machine :=
  let dividend := (m.rdx ++ m.rax).toInt
  let quotient := dividend.tdiv divisor.toInt
  if divisor = 0 ∨ quotient < -2 ^ 63 ∨ 2 ^ 63 ≤ quotient then .error .divide
  else .ok { m with
    rax := BitVec.ofInt 64 quotient
    rdx := BitVec.ofInt 64 (dividend.tmod divisor.toInt) }

end Machine

/-- The bytes `l` at `x`. -/
def putBytes (bytes : ℕ → UInt8) (x : ℕ) (l : List UInt8) : ℕ → UInt8 := fun y =>
  if x ≤ y ∧ y < x + l.length then l.getD (y - x) 0 else bytes y

/-- The `k` bytes at `x`. -/
def bytesAt (bytes : ℕ → UInt8) (x k : ℕ) : List UInt8 :=
  (List.range k).map fun i => bytes (x + i)

/-! ## System calls

What a system call leaves in `%r11`, the flags, is left open. -/

variable (flags : Machine → BitVec 64)

/-- `read` takes a line, or as much of it as there is room for; `write` writes all. -/
def syscall (m : Machine) : Machine :=
  if m.rax = 0 ∧ m.rdi = 0 then
    match m.input with
    | [] => { m with rax := 0, r11 := flags m }
    | line :: lines =>
      let read := line.take m.rdx.toNat
      let left := line.drop m.rdx.toNat
      { m with
        rax := BitVec.ofNat 64 read.length
        r11 := flags m
        bytes := putBytes m.bytes m.rsi.toNat read
        input := if left = [] then lines else left :: lines }
  else if m.rax = 1 ∧ m.rdi = 1 then
    { m with
      rax := m.rdx
      r11 := flags m
      output := m.output ++ bytesAt m.bytes m.rsi.toNat m.rdx.toNat }
  else m

/-! ## The subroutines -/

/-- `write` of a newline. -/
def writeEndLine (m : Machine) : Machine :=
  syscall flags
    { m with rax := 1, rdi := 1, rsi := BitVec.ofNat 64 Addr.endlineString, rdx := 1 }

/-- `write` of the menu. -/
def printWelcome (m : Machine) : Machine :=
  syscall flags { m with rax := 1, rdi := 1, rsi := BitVec.ofNat 64 Addr.welcomeStr, rdx := 42 }

/-- The loop of `_mult` and `_multb`. -/
def multBody (m : Machine) : Except Fault (Machine ⊕ Machine) :=
  if m.r11 = 0 then .ok (.inr m) else .ok (.inl { m with rsi := m.rsi * 10, r11 := m.r11 - 1 })

/-- `_mult` and `_multb`, on the cell that they add to. -/
def multTo (val : ℕ) (m : Machine) : Except Fault Machine := do
  let m ← loop .diverges multBody (m.r11.toNat + 1) m
  pure (m.setQuad val (m.quad val + m.rsi))

/-- `_mult`: ten times the value of the first operand. -/
def mult : Machine → Except Fault Machine := multTo Addr.vala
/-- `_multb`: ten times the value of the second operand. -/
def multb : Machine → Except Fault Machine := multTo Addr.valb

/-- A cell is subtracted from itself twice. -/
def negate (cell : ℕ) (m : Machine) : Machine :=
  let m := { m with r8 := m.quad cell }
  let m := m.setQuad cell (m.quad cell - m.r8)
  m.setQuad cell (m.quad cell - m.r8)

/-- A character that is neither skipped nor a sign. -/
def digit (mult : Machine → Except Fault Machine) (m : Machine) : Except Fault Machine := do
  let m := m.setDil (m.dil - 48)
  let m := { m with rsi := m.dil.setWidth 64 }
  let m := { m with r11 := m.r14 }
  let m ← mult m
  pure { m with r14 := m.r14 + 1 }

/-- What is done with the character in `%dil`. -/
def character (val : ℕ) (mult : Machine → Except Fault Machine) (m : Machine) :
    Except Fault Machine :=
  if m.dil = 0 then pure m
  else if m.dil = 10 then pure m
  else if m.dil = 45 then pure (negate val m)
  else digit mult m

/-- The loop of `_getvaluea` and `_getvalueb`, on the text, the cell of the value, and the
subroutine that is called. -/
def valueBody (text val : ℕ) (mult : Machine → Except Fault Machine) (m : Machine) :
    Except Fault (Machine ⊕ Machine) := do
  let m := { m with r15 := m.r15 - 1 }
  let m := m.setDil (m.bytes (text + m.r15.toNat)).toBitVec
  let m ← character val mult m
  if m.r15 ≠ 0 then pure (.inl m) else pure (.inr m)

/-- The digits of a text read into a value; `_getvaluea` and `_getvalueb` differ in their
cells. -/
def getvalue (text val : ℕ) (mult : Machine → Except Fault Machine) (m : Machine) :
    Except Fault Machine :=
  loop .diverges (valueBody text val mult) 8
    ({ m with r15 := 8, r14 := 0, rdi := 0 }.setQuad val 0)

/-- `_getvaluea` -/
def getvaluea : Machine → Except Fault Machine := getvalue Addr.a Addr.vala mult
/-- `_getvalueb` -/
def getvalueb : Machine → Except Fault Machine := getvalue Addr.b Addr.valb multb

/-- `_add`: the sum, in `rax`. -/
def add (m : Machine) : Machine :=
  let m := { m with r8 := m.quad Addr.vala }
  let m := { m with rsi := m.quad Addr.valb }
  let m := { m with rdx := m.r8 }
  let m := { m with rax := m.rsi }
  { m with rax := m.rax + m.rdx }

/-- `_subtract`: the difference, in `rax`. -/
def subtract (m : Machine) : Machine :=
  let m := { m with rdi := m.quad Addr.vala }
  let m := { m with rsi := m.quad Addr.valb }
  let m := { m with rdx := m.rsi }
  let m := { m with rax := m.rdi }
  { m with rax := m.rax - m.rdx }

/-- `.loopf`: the digits from the lowest one on, each with eight bytes. -/
def digitBody (m : Machine) : Except Fault (Machine ⊕ Machine) := do
  let m := { m with rdi := 10 }
  let m := { m with rdx := 0 }
  let m ← m.idivq m.rdi
  let m := m.setQuad (Addr.final + m.r15.toNat) m.rdx
  let m := m.setQuad (Addr.final + m.r15.toNat) (m.quad (Addr.final + m.r15.toNat) + 48)
  let m := { m with r15 := m.r15 + 1 }
  if m.rax ≠ 0 then pure (.inl m) else pure (.inr m)

/-- `.display`: one byte a call, from the last one on. -/
def displayBody (m : Machine) : Except Fault (Machine ⊕ Machine) :=
  let m := { m with r15 := m.r15 - 1 }
  let m := syscall flags
    { m with rsi := BitVec.ofNat 64 Addr.final + m.r15, rax := 1, rdi := 1, rdx := 1 }
  if m.r15 ≠ 0 then pure (.inl m) else pure (.inr m)

/-- `_toascii` up to `.initial`: `cmpq $0, answer` and `jg`. -/
def writeSign (m : Machine) : Machine :=
  if 0 < (m.quad Addr.answer).toInt then m
  else
    let m := negate Addr.answer m
    syscall flags
      { m with rsi := BitVec.ofNat 64 Addr.negativeString, rax := 1, rdi := 1, rdx := 1 }

/-- `_toascii`: the sign and the digits of the answer, each written on its own. -/
def toascii (m : Machine) : Except Fault Machine := do
  let m := writeSign flags m
  let m := { m with rax := m.quad Addr.answer, r15 := 0 }
  let m ← loop .diverges digitBody (m.rax.toNat + 1) m
  loop .diverges (displayBody flags) (m.r15.toNat + 1) m

/-- A line is read into `n`, and its first eight bytes are moved to `cell`. -/
def enter (cell : ℕ) (m : Machine) : Machine :=
  let m := { m with rax := 0, rdi := 0 }
  let m := m.setQuad Addr.n 0
  let m := syscall flags { m with rsi := BitVec.ofNat 64 Addr.n, rdx := 20 }
  let m := { m with r11 := 0 }
  let m := { m with r11 := m.quad Addr.n }
  let m := { m with r12 := m.r11 }
  m.setQuad cell m.r12

/-- `_start`, up to the exit. -/
def start (m : Machine) : Except Fault Machine := do
  let m := printWelcome flags m
  let m := enter flags Addr.choice m
  let m := enter flags Addr.a (m.setQuad Addr.n 0)
  let m := enter flags Addr.b (m.setQuad Addr.n 0)
  let m ← getvaluea m
  let m ← getvalueb m
  let m := if m.quad Addr.choice = 2610 then subtract m else add m
  let m := m.setQuad Addr.answer m.rax
  let m ← toascii flags m
  pure (writeEndLine flags m)

/-- What the process starts with: the strings of the program, and no output. -/
structure Started (m : Machine) : Prop where
  welcome : bytesAt m.bytes Addr.welcomeStr 42 = welcome
  negative : bytesAt m.bytes Addr.negativeString 2 = [45, 0]
  endline : bytesAt m.bytes Addr.endlineString 2 = [10, 0]
  output : m.output = []

end Assembly
end SystemsProjects

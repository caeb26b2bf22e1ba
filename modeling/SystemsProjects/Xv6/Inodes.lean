import SystemsProjects.Lib.Bitmap
import SystemsProjects.Lib.Layout
import SystemsProjects.Lib.Loop
import SystemsProjects.Lib.Overwrite

/-!
# Blocks and inodes of the file system

The disk is an array of blocks, as the buffer cache shows it: what was written last is what is
read.  A bitmap tells which blocks are in use; an inode has the numbers of the first twelve blocks
of its file, and the number of a block with the numbers of the others.

`bmap` finds a block of a file and allocates it if there is none, `readi` and `writei` go through
the blocks of a range of bytes, and `itrunc` gives all the blocks back.  They work on the inode in
the cache; `iupdate` writes it to the disk.
-/

namespace SystemsProjects
namespace Xv6
namespace Files

open Lib Function

/-- `BSIZE` -/
def bsize : ℕ := 512

/-- `BPB` -/
def bpb : ℕ := bsize * 8

/-- `IPB`: there are 64 bytes in a `struct dinode`. -/
def ipb : ℕ := bsize / 64

/-- `NDIRECT` -/
def ndirect : ℕ := 12

/-- `NINDIRECT` -/
def nindirect : ℕ := bsize / 4

/-- `MAXFILE` -/
def maxfile : ℕ := ndirect + nindirect

/-- A block, by its bytes. -/
abbrev Block := ℕ → UInt8

/-- The blocks of the disk. -/
abbrev Disk := ℕ → Block

/-- `struct superblock`: behind the inodes there is the bitmap, and behind that there are the
`nblocks` blocks for data. -/
structure Superblock where
  size : ℕ
  nblocks : ℕ
  ninodes : ℕ
  inodestart : ℕ
  bmapstart : ℕ
  inodes_fit : inodestart + ninodes / ipb + 1 ≤ bmapstart
  bitmap_fits : bmapstart + size / bpb + 1 ≤ size - nblocks
  size_lt : size < 2 ^ 31

/-- The superblock that `mkfs` writes. -/
def mkfs : Superblock where
  size := 1000
  nblocks := 941
  ninodes := 200
  inodestart := 32
  bmapstart := 58
  inodes_fit := by decide
  bitmap_fits := by decide
  size_lt := by decide

/-- `struct inode`, as far as it is on the disk. -/
@[ext]
structure Inode where
  type : ℕ
  major : ℕ
  minor : ℕ
  nlink : ℕ
  size : ℕ
  addrs : Fin 13 → ℕ
  deriving DecidableEq

/-- The panics of `fs.c` in these calls.  `log_write`, `bget` and `iget` have their own, which the
blocks here, without a log and a cache, do not show. -/
inductive Panic where
  | outOfBlocks
  | freeingFreeBlock
  | outOfRange
  | noInodes
  | noType
  deriving DecidableEq

variable (sb : Superblock)

/-! ## Blocks -/

/-- `BBLOCK` -/
def Superblock.bblock (b : ℕ) : ℕ := b / bpb + sb.bmapstart

/-- `IBLOCK` -/
def Superblock.iblock (inum : ℕ) : ℕ := inum / ipb + sb.inodestart

/-- `bzero` -/
def bzero (d : Disk) (b : ℕ) : Disk := update d b fun _ => 0

/-- The loops of `balloc`: the first bit that is clear, by the number of the first block of its
bitmap block, and its place there. -/
def findFree (d : Disk) : Option (ℕ × ℕ) :=
  (List.range ((sb.size + bpb - 1) / bpb)).findSome? fun k =>
    ((List.range (min bpb (sb.size - k * bpb))).find? fun bi =>
      !BitSet.get (d (sb.bblock (k * bpb))) bi).map fun bi => (k * bpb, bi)

/-- `balloc` -/
def balloc (d : Disk) : Except Panic (Disk × ℕ) :=
  match findFree sb d with
  | some (b, bi) =>
    .ok (bzero (update d (sb.bblock b) (BitSet.set (d (sb.bblock b)) bi)) (b + bi), b + bi)
  | none => .error .outOfBlocks

/-- `bfree` -/
def bfree (d : Disk) (b : ℕ) : Except Panic Disk :=
  if BitSet.get (d (sb.bblock b)) (b % bpb) then
    .ok (update d (sb.bblock b) (BitSet.clear (d (sb.bblock b)) (b % bpb)))
  else .error .freeingFreeBlock

/-! ## Inodes on the disk -/

/-- Where an inode is in its block. -/
def inodeStart (inum : ℕ) : ℕ := inum % ipb * 64

/-- The fields of a `struct dinode`. -/
def Inode.fields (ip : Inode) (a : ℕ) : List RecordField :=
  [⟨a, 2, ip.type⟩, ⟨a + 2, 2, ip.major⟩, ⟨a + 4, 2, ip.minor⟩, ⟨a + 6, 2, ip.nlink⟩,
    ⟨a + 8, 4, ip.size⟩] ++ (List.finRange 13).map fun k => ⟨a + 12 + 4 * k, 4, ip.addrs k⟩

/-- `iupdate` -/
def iupdate (d : Disk) (inum : ℕ) (ip : Inode) : Disk :=
  update d (sb.iblock inum) (putFields (d (sb.iblock inum)) (ip.fields (inodeStart inum)))

/-- The inode that is on the disk: what `ilock` copies. -/
def dinode (d : Disk) (inum : ℕ) : Inode :=
  let b := d (sb.iblock inum)
  let a := inodeStart inum
  { type := value b a 2
    major := value b (a + 2) 2
    minor := value b (a + 4) 2
    nlink := value b (a + 6) 2
    size := value b (a + 8) 4
    addrs := fun k => value b (a + 12 + 4 * k) 4 }

/-- `ialloc`: the first inode from 1 on that has no type is set to zero and gets the type. -/
def ialloc (d : Disk) (type : ℕ) : Except Panic (Disk × ℕ) :=
  match (List.range sb.ninodes).find? fun inum => 1 ≤ inum && (dinode sb d inum).type == 0 with
  | some inum =>
    .ok (update d (sb.iblock inum)
      (put (blit (d (sb.iblock inum)) (inodeStart inum) (List.replicate 64 0))
        (inodeStart inum) 2 type), inum)
  | none => .error .noInodes

/-! ## The blocks of a file -/

/-- `ip->addrs[NDIRECT]` -/
def Inode.indirect (ip : Inode) : ℕ := ip.addrs 12

/-- `ip->addrs[k] = b` -/
def Inode.setAddr (ip : Inode) (k : Fin 13) (b : ℕ) : Inode :=
  { ip with addrs := update ip.addrs k b }

/-- Word `j` of a block. -/
def word (d : Disk) (b j : ℕ) : ℕ := value (d b) (4 * j) 4

/-- `a[j] = v`, for the words of block `b`. -/
def setWord (d : Disk) (b j v : ℕ) : Disk := update d b (put (d b) (4 * j) 4 v)

/-- An address of the inode, which is allocated if there is none. -/
def mapAddr (d : Disk) (ip : Inode) (k : Fin 13) : Except Panic (Disk × Inode × ℕ) :=
  if ip.addrs k = 0 then do
    let (d, b) ← balloc sb d
    return (d, ip.setAddr k b, b)
  else return (d, ip, ip.addrs k)

theorem lt_of_direct {bn : ℕ} (h : bn < ndirect) : bn < 13 := Nat.lt_succ_of_lt h

/-- `bmap` -/
def bmap (d : Disk) (ip : Inode) (bn : ℕ) : Except Panic (Disk × Inode × ℕ) :=
  if h : bn < ndirect then mapAddr sb d ip ⟨bn, lt_of_direct h⟩
  else if bn - ndirect < nindirect then do
    let (d, ip, addr) ← mapAddr sb d ip 12
    if word d addr (bn - ndirect) = 0 then do
      let (d, b) ← balloc sb d
      return (setWord d addr (bn - ndirect) b, ip, b)
    else return (d, ip, word d addr (bn - ndirect))
  else .error .outOfRange

/-- A round of the first loop of `itrunc`. -/
def freeAddr (d : Disk) (ip : Inode) (k : Fin 13) : Except Panic (Disk × Inode) :=
  if ip.addrs k = 0 then return (d, ip)
  else do
    let d ← bfree sb d (ip.addrs k)
    return (d, ip.setAddr k 0)

/-- A round of the second loop: `addr` is the block with the numbers. -/
def freeWord (addr : ℕ) (d : Disk) (j : ℕ) : Except Panic Disk :=
  if word d addr j = 0 then return d else bfree sb d (word d addr j)

/-- The blocks that the indirect block names, and that block. -/
def freeIndirect (d : Disk) (ip : Inode) : Except Panic (Disk × Inode) :=
  if ip.indirect = 0 then return (d, ip)
  else do
    let d ← (List.range nindirect).foldlM (freeWord sb ip.indirect) d
    let d ← bfree sb d ip.indirect
    return (d, ip.setAddr 12 0)

/-- `itrunc` -/
def itrunc (d : Disk) (inum : ℕ) (ip : Inode) : Except Panic (Disk × Inode) := do
  let (d, ip) ← (List.finRange 12).foldlM (fun r k => freeAddr sb r.1 r.2 k.castSucc) (d, ip)
  let (d, ip) ← freeIndirect sb d ip
  let ip := { ip with size := 0 }
  return (iupdate sb d inum ip, ip)

/-! ## The bytes of a file -/

/-- The loop of `readi`.  Each round copies a byte at least, so that `fuel` is enough if it is the
number of bytes. -/
def readLoop : ℕ → Disk → Inode → ℕ → ℕ → Except Panic (Disk × Inode × List UInt8)
  | 0, d, ip, _, _ => return (d, ip, [])
  | fuel + 1, d, ip, off, n =>
    if n = 0 then return (d, ip, [])
    else do
      let m := min n (bsize - off % bsize)
      let (d, ip, b) ← bmap sb d ip (off / bsize)
      let bytes := upTo (fun x => d b (off % bsize + x)) m
      let (d, ip, rest) ← readLoop fuel d ip (off + m) (n - m)
      return (d, ip, bytes ++ rest)

/-- `readi`: the bytes, or `none` for -1. -/
def readi (d : Disk) (ip : Inode) (off n : ℕ) :
    Except Panic (Disk × Inode × Option (List UInt8)) :=
  if ip.size < off ∨ (off + n) % 2 ^ 32 < off then return (d, ip, none)
  else do
    let n := if ip.size < (off + n) % 2 ^ 32 then ip.size - off else n
    let (d, ip, bytes) ← readLoop sb n d ip off n
    return (d, ip, some bytes)

/-- The loop of `writei`; it returns the offset at its end. -/
def writeLoop : ℕ → Disk → Inode → ℕ → List UInt8 → Except Panic (Disk × Inode × ℕ)
  | 0, d, ip, off, _ => return (d, ip, off)
  | fuel + 1, d, ip, off, src =>
    if src = [] then return (d, ip, off)
    else do
      let m := min src.length (bsize - off % bsize)
      let (d, ip, b) ← bmap sb d ip (off / bsize)
      let d := update d b (blit (d b) (off % bsize) (src.take m))
      writeLoop fuel d ip (off + m) (src.drop m)

/-- `writei`: whether the bytes were written. -/
def writei (d : Disk) (inum : ℕ) (ip : Inode) (off : ℕ) (src : List UInt8) :
    Except Panic (Disk × Inode × Bool) :=
  if ip.size < off ∨ (off + src.length) % 2 ^ 32 < off then return (d, ip, false)
  else if maxfile * bsize < (off + src.length) % 2 ^ 32 then return (d, ip, false)
  else do
    let (d, ip, off) ← writeLoop sb src.length d ip off src
    if 0 < src.length ∧ ip.size < off then
      let ip := { ip with size := off }
      return (iupdate sb d inum ip, ip, true)
    else return (d, ip, true)

end Files
end Xv6
end SystemsProjects

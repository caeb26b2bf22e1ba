import SystemsProjects.Lib.Crash

/-!
# The log of the file system

`log.c` lets several file-system calls run at once and makes each group of them atomic with
respect to crashes.  The calls change blocks in the buffer cache only (`log_write` pins them
there).  When the last of the running calls ends, `commit` copies the changed blocks to the log
area of the disk, writes a header that lists them, copies them to their home locations, and
clears the header.  After a crash `recover_from_log` looks at the header and copies whatever it
lists.

The on-disk part is written here as programs over the blocks of the disk, with one access for
each `bread` or `bwrite`: a crash may come in front of any of them, also during recovery.  A
block is `BSIZE` bytes, read as 128 words of 4 bytes, and a write of a block is atomic.

Blocks that a file-system call may write are *home* blocks: on the disk and outside the log
area.  `Logged lh stable d` says what the disk `d` is worth: the header lists `lh`, the log area
has the contents that these blocks have in `stable`, and all other home blocks have theirs
already.
-/

namespace SystemsProjects
namespace Xv6

/-- A block, as its words. -/
abbrev Block := Fin 128 → ℤ

/-- `LOGSIZE`: data blocks in the log. -/
def logSize : ℕ := 30

/-- `MAXOPBLOCKS`: blocks that one call may write. -/
def maxOpBlocks : ℕ := 10

/-- `FSSIZE`: blocks of the file system. -/
def fsSize : ℤ := 1000

/-- What stops the kernel: the panics of the log, and that of the disk.  `bget` has one for a
cache of which all buffers are in use; the cache here has no bound. -/
inductive Panic where
  | incorrectBlockno
  | tooBigTransaction
  | outsideOfTransaction
  | logCommitting
  /-- not a panic of the source: `read_head` runs over the end of `log.lh.block` -/
  | headerOverrun
  deriving DecidableEq, Repr

/-- The place of the log on the disk: the header block, and the number of blocks with it. -/
structure LogArea where
  start : ℤ
  size : ℤ
  start_nonneg : 0 ≤ start
  size_pos : 1 ≤ size
  fits : start + size ≤ fsSize

namespace LogArea

variable (L : LogArea)

/-- A block of the file system that is not in the log area. -/
def Home (b : ℤ) : Prop :=
  0 ≤ b ∧ b < fsSize ∧ (b < L.start ∨ L.start + L.size ≤ b)

instance (b : ℤ) : Decidable (L.Home b) := by
  unfold Home
  infer_instance

variable {L}

theorem Home.ne {b c : ℤ} (hb : L.Home b) (hc : ¬ L.Home c) : b ≠ c := fun h => hc (h ▸ hb)

end LogArea

namespace Block

/-- Word `i` of a block. -/
def word (v : Block) (i : ℕ) : ℤ := if h : i < 128 then v ⟨i, h⟩ else 0

/-- A buffer over which `hb->n` and `hb->block` have been set. -/
def setHeader (v : Block) (lh : List ℤ) : Block := fun i =>
  if i.val = 0 then lh.length else lh.getD (i.val - 1) (v i)

end Block

open Lib

/-- A piece of kernel code that reads and writes blocks. -/
abbrev DiskProg (α : Type) := Prog Panic ℤ Block α

/-- `bread`, with the `brelse` that follows: the content of a block. -/
def bread (b : ℤ) : DiskProg Block :=
  if 0 ≤ b ∧ b < fsSize then .load b .ret else .fail .incorrectBlockno

/-- `bwrite` of a buffer that `bread` has returned for block `b`. -/
def bwrite (b : ℤ) (data : Block) : DiskProg Unit := .store b data (.ret ())

namespace Log

variable (L : LogArea)

/-- `install_trans`: copy committed blocks from the log to their home locations. -/
def installTrans (lh : List ℤ) : DiskProg Unit :=
  Prog.forRange (fun tail => do
    let lbuf ← bread (L.start + tail + 1)
    let _dbuf ← bread (lh.getD tail 0)
    bwrite (lh.getD tail 0) lbuf) lh.length

/-- `read_head`: the block numbers in the header on the disk. -/
def readHead : DiskProg (List ℤ) := do
  let buf ← bread L.start
  if (logSize : ℤ) < buf.word 0 then
    .fail .headerOverrun
  else
    return (List.range (buf.word 0).toNat).map fun i => buf.word (i + 1)

/-- `write_head`: the point at which a transaction commits. -/
def writeHead (lh : List ℤ) : DiskProg Unit := do
  let buf ← bread L.start
  bwrite L.start (buf.setHeader lh)

/-- `recover_from_log`; the result is the header in memory. -/
def recoverFromLog : DiskProg (List ℤ) := do
  let lh ← readHead L
  installTrans L lh
  writeHead L []
  return []

/-- `write_log`: copy modified blocks from the cache to the log. -/
def writeLog (lh : List ℤ) : DiskProg Unit :=
  Prog.forRange (fun tail => do
    let _to ← bread (L.start + tail + 1)
    let data ← bread (lh.getD tail 0)
    bwrite (L.start + tail + 1) data) lh.length

/-- `commit`; the result is the header in memory. -/
def commit (lh : List ℤ) : DiskProg (List ℤ) :=
  if 0 < lh.length then do
    writeLog L lh
    writeHead L lh
    installTrans L lh
    writeHead L []
    return []
  else
    return lh

/-! ## What the disk is worth -/

/-- The header on the disk lists `lh`. -/
def HasHeader (v : Block) (lh : List ℤ) : Prop :=
  v.word 0 = lh.length ∧ ∀ i (h : i < lh.length), v.word (i + 1) = lh[i]

/-- A list of block numbers that the log has room for. -/
structure Loggable (lh : List ℤ) : Prop where
  logSize : lh.length ≤ logSize
  size : lh.length + 1 ≤ L.size
  home : ∀ b ∈ lh, L.Home b

/-- The disk `d` holds the transaction `lh`, and with it the contents `stable`. -/
structure Logged (lh : List ℤ) (stable : ℤ → Block) (d : ℤ → Block) : Prop where
  loggable : Loggable L lh
  header : HasHeader (d L.start) lh
  copies : ∀ i (h : i < lh.length), d (L.start + i + 1) = stable lh[i]
  rest : ∀ b, L.Home b → b ∉ lh → d b = stable b

/-- **The disk is worth `stable`**: this is what a recovery will make of it. -/
def Recoverable (stable d : ℤ → Block) : Prop := ∃ lh, Logged L lh stable d

/-- The disk is worth `stable`, and its users, if there are any, see `pending`. -/
def Serves (users : Prop) (stable pending : ℤ → Block) (m : Cached ℤ Block) : Prop :=
  Recoverable L stable m.disk ∧ (users → ∀ b, L.Home b → m.view b = pending b)

variable {L} {lh : List ℤ} {stable d : ℤ → Block} {v : Block} {i : ℕ} {b : ℤ}

theorem loggable_nil : Loggable L [] where
  logSize := Nat.zero_le _
  size := by simpa using L.size_pos
  home := by simp

theorem setHeader_word_zero (v : Block) (lh : List ℤ) : (v.setHeader lh).word 0 = lh.length := by
  simp [Block.word, Block.setHeader]

theorem hasHeader_setHeader (v : Block) (h : lh.length ≤ logSize) :
    HasHeader (v.setHeader lh) lh := by
  refine ⟨setHeader_word_zero v lh, fun i hi => ?_⟩
  have hlt : i + 1 < 128 := by
    unfold logSize at h
    omega
  rw [Block.word, dif_pos hlt]
  simp [Block.setHeader, hi]

theorem HasHeader.eq_map (h : HasHeader v lh) :
    (List.range (v.word 0).toNat).map (fun i => v.word (i + 1)) = lh := by
  rw [h.1, Int.toNat_natCast]
  refine List.ext_getElem (by simp) fun i _ hi => ?_
  rw [List.getElem_map, List.getElem_range]
  exact h.2 i hi

/-- The blocks of the log are not home blocks. -/
theorem not_home_log (hi : (i : ℤ) < L.size) : ¬ L.Home (L.start + i) := by
  unfold LogArea.Home
  omega

theorem not_home_start : ¬ L.Home L.start := by
  simpa using not_home_log (L := L) (i := 0) (by have := L.size_pos; omega)

theorem Loggable.not_home (h : Loggable L lh) (hi : i < lh.length) :
    ¬ L.Home (L.start + i + 1) := by
  have hlt : ((i + 1 : ℕ) : ℤ) < L.size := by
    have := h.size
    omega
  have := not_home_log hlt
  rwa [Nat.cast_succ, ← add_assoc] at this

/-! ## Single accesses -/

variable {α : Type} {C C₁ C₂ : Cached ℤ Block → Prop} {Q : α → Cached ℤ Block → Prop}
  {f : Block → DiskProg α} {p : DiskProg α} {m : Cached ℤ Block} {data : Block}

/-- A block of the log area. -/
theorem inDisk_log (hi : (i : ℤ) < L.size) : 0 ≤ L.start + i ∧ L.start + i < fsSize := by
  have := L.start_nonneg
  have := L.fits
  omega

theorem inDisk_start : 0 ≤ L.start ∧ L.start < fsSize := by
  simpa using inDisk_log (L := L) (i := 0) (by have := L.size_pos; omega)

theorem Loggable.inDisk (h : Loggable L lh) (hi : i < lh.length) :
    0 ≤ L.start + i + 1 ∧ L.start + i + 1 < fsSize := by
  have hlt : ((i + 1 : ℕ) : ℤ) < L.size := by
    have := h.size
    omega
  have := inDisk_log hlt
  rwa [Nat.cast_succ, ← add_assoc] at this

theorem keeps_bread (hb : 0 ≤ b ∧ b < fsSize) (hC : C m)
    (h : Prog.Keeps C Q (f (m.view b)) m) : Prog.Keeps C Q (bread b >>= f) m := by
  rw [bread, if_pos hb]
  exact ⟨hC, h⟩

theorem switches_bread (hb : 0 ≤ b ∧ b < fsSize) (hC : C₁ m)
    (h : Prog.Switches C₁ C₂ Q (f (m.view b)) m) : Prog.Switches C₁ C₂ Q (bread b >>= f) m := by
  rw [bread, if_pos hb]
  exact ⟨hC, h⟩

/-! ## The copy home -/

theorem Logged.recoverable (h : Logged L lh stable d) : Recoverable L stable d := ⟨lh, h⟩

/-- A home block that gets its stable content. -/
theorem Logged.update (h : Logged L lh stable d) (hb : L.Home b) :
    Logged L lh stable (Function.update d b (stable b)) where
  loggable := h.loggable
  header := by
    rw [Function.update_of_ne (hb.ne not_home_start).symm]
    exact h.header
  copies i hi := by
    rw [Function.update_of_ne (hb.ne (h.loggable.not_home hi)).symm]
    exact h.copies i hi
  rest c hc hmem := by
    by_cases heq : c = b
    · rw [heq, Function.update_self]
    · rw [Function.update_of_ne heq]
      exact h.rest c hc hmem

/-- The copy home, behind its first `k` blocks. -/
structure Installing (L : LogArea) (users : Prop) (lh : List ℤ) (stable : ℤ → Block) (k : ℕ)
    (m : Cached ℤ Block) : Prop where
  logged : Logged L lh stable m.disk
  view : users → ∀ b, L.Home b → m.view b = stable b
  installed : ∀ b ∈ lh.take k, m.disk b = stable b
  pinned : ∀ b ∈ m.pinned, b ∈ lh.drop k

variable {users : Prop}

theorem Installing.serves {k : ℕ} (h : Installing L users lh stable k m) :
    Serves L users stable stable m := ⟨h.logged.recoverable, h.view⟩

/-- Behind the copy home all home blocks have their contents. -/
theorem Installing.disk_eq (h : Installing L users lh stable lh.length m) (hb : L.Home b) :
    m.disk b = stable b := by
  by_cases hmem : b ∈ lh
  · exact h.installed b (by rwa [List.take_length])
  · exact h.logged.rest b hb hmem

theorem Installing.pinned_eq (h : Installing L users lh stable lh.length m) : m.pinned = ∅ := by
  refine Finset.eq_empty_of_forall_notMem fun b hb => ?_
  simpa using h.pinned b hb

/-- One more block copied home. -/
theorem Installing.succ {k : ℕ} (h : Installing L users lh stable k m) (hk : k < lh.length) :
    Installing L users lh stable (k + 1) (m.write (lh.getD k 0) (stable (lh.getD k 0))) := by
  have hget : lh.getD k 0 = lh[k] := List.getD_eq_getElem _ _ hk
  rw [hget]
  refine ⟨?_, fun hu b hb => ?_, fun b hb => ?_, fun b hb => ?_⟩
  · rw [Cached.write_disk]
    exact h.logged.update (h.logged.loggable.home _ (List.getElem_mem hk))
  · rw [Cached.write_view]
    by_cases heq : b = lh[k]
    · rw [heq, Function.update_self]
    · rw [Function.update_of_ne heq]
      exact h.view hu b hb
  · rw [Cached.write_disk]
    by_cases heq : b = lh[k]
    · rw [heq, Function.update_self]
    · rw [Function.update_of_ne heq]
      rw [List.take_succ_eq_append_getElem hk, List.mem_append, List.mem_singleton] at hb
      exact h.installed b (hb.resolve_right heq)
  · rw [Cached.write_pinned, Finset.mem_erase] at hb
    have hmem := h.pinned b hb.2
    rw [List.drop_eq_getElem_cons hk, List.mem_cons] at hmem
    exact hmem.resolve_left hb.1

/-- **`install_trans` is safe at every crash point**, and leaves all home blocks with their
stable contents. -/
theorem installTrans_keeps (h : Installing L users lh stable 0 m) :
    Prog.Keeps (Serves L users stable stable)
      (fun _ m' => Installing L users lh stable lh.length m') (installTrans L lh) m := by
  refine Prog.Keeps.forRange (fun k m hm => hm.serves) (fun k m hk hm => ?_) (le_refl _) h
  have hC := hm.serves
  have hget : lh.getD k 0 = lh[k] := List.getD_eq_getElem _ _ hk
  have hhome := hm.logged.loggable.home _ (List.getElem_mem hk)
  have hcopy : m.view (L.start + k + 1) = stable (lh.getD k 0) := by
    rw [m.coherent _ fun hmem => hm.logged.loggable.not_home hk
      (hm.logged.loggable.home _ (List.mem_of_mem_drop (hm.pinned _ hmem))),
      hm.logged.copies k hk, hget]
  have hdone := hm.succ hk
  refine keeps_bread (hm.logged.loggable.inDisk hk) hC ?_
  refine keeps_bread (by rw [hget]; exact ⟨hhome.1, hhome.2.1⟩) hC ?_
  rw [hcopy]
  exact ⟨hC, hdone.serves, hdone⟩

/-! ## The header -/

/-- The disk with all transactions at home. -/
theorem Logged.settled (h : Logged L [] stable d) (hb : L.Home b) : d b = stable b :=
  h.rest b hb (by simp)

/-- What a user sees behind a commit or a recovery. -/
structure Clean (L : LogArea) (stable : ℤ → Block) (m : Cached ℤ Block) : Prop where
  logged : Logged L [] stable m.disk
  pinned : m.pinned = ∅

theorem Clean.view_eq (h : Clean L stable m) (hb : L.Home b) : m.view b = stable b := by
  rw [m.coherent b (by rw [h.pinned]; exact Finset.notMem_empty b)]
  exact h.logged.settled hb

theorem Clean.serves (h : Clean L stable m) : Serves L users stable stable m :=
  ⟨h.logged.recoverable, fun _ _ hb => h.view_eq hb⟩

/-- The header set on a disk that has the copies and the rest. -/
theorem logged_setHeader (hlh : Loggable L lh)
    (hcopies : ∀ i (h : i < lh.length), d (L.start + i + 1) = stable lh[i])
    (hrest : ∀ b, L.Home b → b ∉ lh → d b = stable b) :
    Logged L lh stable (Function.update d L.start (v.setHeader lh)) where
  loggable := hlh
  header := by
    rw [Function.update_self]
    exact hasHeader_setHeader _ hlh.logSize
  copies i hi := by
    rw [Function.update_of_ne (by omega)]
    exact hcopies i hi
  rest b hb hmem := by
    rw [Function.update_of_ne (hb.ne not_home_start)]
    exact hrest b hb hmem

/-- The header cleared when all is at home. -/
theorem writeHead_nil_keeps (h : Installing L users lh stable lh.length m) :
    Prog.Keeps (Serves L users stable stable) (fun _ m' => Clean L stable m')
      (writeHead L []) m := by
  have hlogged : Logged L [] stable
      (m.write L.start (Block.setHeader (m.view L.start) [])).disk :=
    logged_setHeader loggable_nil (by simp) fun b hb _ => h.disk_eq hb
  have hclean : Clean L stable (m.write L.start (Block.setHeader (m.view L.start) [])) :=
    ⟨hlogged, by rw [Cached.write_pinned, h.pinned_eq, Finset.erase_empty]⟩
  exact keeps_bread inDisk_start h.serves ⟨h.serves, hclean.serves, hclean⟩

/-! ## Recovery -/

/-- A recovery is safe at every crash point and brings the disk back to its worth. -/
theorem recoverFromLog_keeps (h : Recoverable L stable d) :
    Prog.Keeps (Serves L False stable stable) (fun lh m => lh = [] ∧ Clean L stable m)
      (recoverFromLog L) (Cached.ofDisk d) := by
  obtain ⟨lh, hlogged⟩ := h
  have hstart : Installing L False lh stable 0 (Cached.ofDisk d) :=
    ⟨hlogged, False.elim, by simp, by simp⟩
  have hread : Prog.Keeps (Serves L False stable stable)
      (fun lh' m => lh' = lh ∧ Installing L False lh stable 0 m) (readHead L)
      (Cached.ofDisk d) := by
    refine keeps_bread inDisk_start hstart.serves ?_
    have hn : ¬ (logSize : ℤ) < (d L.start).word 0 := by
      have := hlogged.loggable.logSize
      rw [hlogged.header.1]
      omega
    rw [Cached.ofDisk_view, if_neg hn, hlogged.header.eq_map]
    exact ⟨hstart.serves, rfl, hstart⟩
  refine hread.bind fun lh' m hm => ?_
  obtain ⟨rfl, hm⟩ := hm
  refine (installTrans_keeps hm).bind fun _ m₁ hm₁ => ?_
  refine (writeHead_nil_keeps hm₁).bind fun _ m₂ hm₂ => ?_
  exact ⟨hm₂.serves, rfl, hm₂⟩

/-! ## Commit -/

/-- The log area while the copies are written: the first `k` are there, the header is clear. -/
structure Copying (L : LogArea) (lh : List ℤ) (stable pending : ℤ → Block) (k : ℕ)
    (m : Cached ℤ Block) : Prop where
  loggable : Loggable L lh
  logged : Logged L [] stable m.disk
  view : ∀ b, L.Home b → m.view b = pending b
  pinned : ∀ b ∈ m.pinned, b ∈ lh
  copied : ∀ i (h : i < lh.length), i < k → m.disk (L.start + i + 1) = pending lh[i]

variable {pending : ℤ → Block}

theorem Copying.serves {k : ℕ} (h : Copying L lh stable pending k m) :
    Serves L True stable pending m := ⟨h.logged.recoverable, fun _ => h.view⟩

/-- A block of the log area written while the header is clear. -/
theorem Logged.update_log (h : Logged L [] stable d) {j : ℤ} (hj : 0 < j)
    (hb : ¬ L.Home (L.start + j)) :
    Logged L [] stable (Function.update d (L.start + j) v) where
  loggable := h.loggable
  header := by
    rw [Function.update_of_ne (by omega)]
    exact h.header
  copies i hi := absurd hi (by simp)
  rest b hhome hmem := by
    rw [Function.update_of_ne (hhome.ne hb)]
    exact h.rest b hhome hmem

/-- One more copy written. -/
theorem Copying.succ {k : ℕ} (h : Copying L lh stable pending k m) (hk : k < lh.length) :
    Copying L lh stable pending (k + 1)
      (m.write (L.start + k + 1) (pending (lh.getD k 0))) := by
  have hnot := h.loggable.not_home hk
  refine ⟨h.loggable, ?_, fun b hb => ?_, fun b hb => ?_, fun i hi hik => ?_⟩
  · rw [Cached.write_disk, add_assoc]
    exact h.logged.update_log (by omega) (by rwa [← add_assoc])
  · rw [Cached.write_view, Function.update_of_ne (hb.ne hnot)]
    exact h.view b hb
  · rw [Cached.write_pinned] at hb
    exact h.pinned b (Finset.mem_of_mem_erase hb)
  · rw [Cached.write_disk]
    by_cases heq : i = k
    · subst heq
      rw [Function.update_self, List.getD_eq_getElem _ _ hi]
    · rw [Function.update_of_ne (by omega)]
      exact h.copied i hi (by omega)

/-- The copies are written without an effect on what the disk is worth. -/
theorem writeLog_keeps (h : Copying L lh stable pending 0 m) :
    Prog.Keeps (Serves L True stable pending)
      (fun _ m' => Copying L lh stable pending lh.length m') (writeLog L lh) m := by
  refine Prog.Keeps.forRange (fun k m hm => hm.serves) (fun k m hk hm => ?_) (le_refl _) h
  have hC := hm.serves
  have hget : lh.getD k 0 = lh[k] := List.getD_eq_getElem _ _ hk
  have hhome := hm.loggable.home _ (List.getElem_mem hk)
  have hdone := hm.succ hk
  refine keeps_bread (hm.loggable.inDisk hk) hC ?_
  refine keeps_bread (by rw [hget]; exact ⟨hhome.1, hhome.2.1⟩) hC ?_
  rw [hm.view _ (by rwa [hget])]
  exact ⟨hC, hdone.serves, hdone⟩

/-- **The write of the header is the commit.** -/
theorem writeHead_switches (h : Copying L lh stable pending lh.length m) :
    Prog.Switches (Serves L True stable pending) (Serves L True pending pending)
      (fun _ m' => Installing L True lh pending 0 m') (writeHead L lh) m := by
  have hrest : ∀ b, L.Home b → b ∉ lh → m.disk b = pending b := fun b hb hmem => by
    rw [← m.coherent b fun hpin => hmem (h.pinned b hpin), h.view b hb]
  have hlogged : Logged L lh pending
      (m.write L.start (Block.setHeader (m.view L.start) lh)).disk :=
    logged_setHeader h.loggable (fun i hi => h.copied i hi hi) hrest
  have hdone : Installing L True lh pending 0
      (m.write L.start (Block.setHeader (m.view L.start) lh)) := by
    refine ⟨hlogged, fun _ b hb => ?_, by simp, fun b hb => ?_⟩
    · rw [Cached.write_view, Function.update_of_ne (hb.ne not_home_start)]
      exact h.view b hb
    · rw [Cached.write_pinned] at hb
      exact h.pinned b (Finset.mem_of_mem_erase hb)
  exact switches_bread inDisk_start h.serves ⟨h.serves, Or.inr ⟨hdone.serves, hdone⟩⟩

/-- **A commit takes effect at one store.**  Up to it the disk is worth what it was worth
before; from then on it is worth what the users of the cache have seen. -/
theorem commit_switches (h : Copying L lh stable pending 0 m) (hlh : lh ≠ []) :
    Prog.Switches (Serves L True stable pending) (Serves L True pending pending)
      (fun lh' m' => lh' = [] ∧ Clean L pending m') (commit L lh) m := by
  rw [commit, if_pos (List.length_pos_iff.mpr hlh)]
  refine (writeLog_keeps h).bind_switches fun _ m₁ hm₁ => ?_
  refine (writeHead_switches hm₁).bind fun _ m₂ hm₂ => ?_
  refine (installTrans_keeps hm₂).bind fun _ m₃ hm₃ => ?_
  refine (writeHead_nil_keeps hm₃).bind fun _ m₄ hm₄ => ?_
  exact ⟨hm₄.serves, rfl, hm₄⟩

end Log
end Xv6
end SystemsProjects

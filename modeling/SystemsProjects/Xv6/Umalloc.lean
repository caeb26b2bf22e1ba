import SystemsProjects.Lib.Loop
import SystemsProjects.Lib.Ring
import SystemsProjects.Lib.Tiles

/-!
# The allocator of the user programs

`malloc` and `free` keep the free blocks in a circular list in the order of their addresses.
The list begins with `base`, a header without a block, and `freep` is the node where the next
search starts.  `free` looks for the place of the block and makes one block of it and of the
free ones that touch it; `malloc` takes the first block that is large enough, or the end of it,
and when it has come round it asks the kernel for more.

Addresses and sizes are counted in units of a header, of eight bytes.  A pointer has 32 bits, so
`plus` wraps around at 2^29 units.  The process has whole pages: an access behind the page in
which its memory ends is a fault, and the kernel kills the process.  `Sound` says what the list
and the blocks are like, and `free_spec` that `free` keeps it: it ends, it leaves no two free
blocks side by side, and it writes nothing inside a block that is still in use.
-/

namespace SystemsProjects
namespace Xv6
namespace Umalloc

open Lib Function

/-- The headers by address, `freep`, and the size of the process in units. -/
structure Heap where
  ptr : ℕ → ℕ
  size : ℕ → ℕ
  freep : ℕ
  brk : ℕ

/-- Why a call does not return. -/
inductive Stuck where
  | timeout
  /-- the process has accessed a page that it does not have -/
  | pageFault

/-- `PGSIZE`, in units. -/
def pageUnits : ℕ := 512

/-- An access to the unit `p`: the process has the pages up to `PGROUNDUP(sz)`. -/
def Heap.access (h : Heap) (p : ℕ) : Except Stuck Unit :=
  if p < (h.brk + (pageUnits - 1)) / pageUnits * pageUnits then .ok () else .error .pageFault

/-- What lies in the process can be accessed. -/
theorem Heap.access_of_lt {h : Heap} {p : ℕ} (hp : p < h.brk) : h.access p = .ok () := by
  have hround : p < (h.brk + (pageUnits - 1)) / pageUnits * pageUnits := by
    unfold pageUnits
    omega
  rw [access, if_pos hround]

/-- `p + n` for a `Header *p`. -/
def plus (p n : ℕ) : ℕ := (p + n) % 2 ^ 29

/-! ## `free` -/

/-- The `for` loop of `free`, which leaves with the node that `bp` belongs behind. -/
def placeBody (h : Heap) (bp p : ℕ) : Except Stuck (ℕ ⊕ ℕ) := do
  h.access p
  if p < bp ∧ bp < h.ptr p then pure (.inr p)
  else if h.ptr p ≤ p ∧ (p < bp ∨ bp < h.ptr p) then pure (.inr p)
  else pure (.inl (h.ptr p))

/-- `if(bp + bp->s.size == p->s.ptr) … else …` -/
def mergeUp (h : Heap) (bp p : ℕ) : Except Stuck Heap := do
  h.access bp
  if plus bp (h.size bp) = h.ptr p then
    h.access (h.ptr p)
    pure { h with
      size := update h.size bp ((h.size bp + h.size (h.ptr p)) % 2 ^ 32)
      ptr := update h.ptr bp (h.ptr (h.ptr p)) }
  else pure { h with ptr := update h.ptr bp (h.ptr p) }

/-- `if(p + p->s.size == bp) … else …`, for nodes that have been accessed already. -/
def mergeDown (h : Heap) (bp p : ℕ) : Heap :=
  if plus p (h.size p) = bp then
    { h with
      size := update h.size p ((h.size p + h.size bp) % 2 ^ 32)
      ptr := update h.ptr p (h.ptr bp) }
  else { h with ptr := update h.ptr p bp }

/-- As many rounds as there are addresses, twice. -/
def rounds : ℕ := 2 ^ 30

/-- `free` of the block whose first unit behind the header is `ap`. -/
def free (h : Heap) (ap : ℕ) : Except Stuck Heap := do
  let bp := ap - 1
  let p ← loop Stuck.timeout (placeBody h bp) rounds h.freep
  let h' ← mergeUp h bp p
  pure { mergeDown h' bp p with freep := p }

/-! ## `malloc` -/

/-- `KERNBASE` -/
def kernBase : ℕ := 2 ^ 31

/-- `sbrk(n)` for an `n` of 32 bits, with what `growproc` does for a negative number: the size
of the process afterwards, or nothing when it fails.  `grant` says whether the kernel has the
pages. -/
def sbrk (grant : Bool) (brk n : ℕ) : Option ℕ :=
  if n = 0 then some brk
  else if n < 2 ^ 31 then
    if 8 * brk + n < kernBase ∧ grant then some ((8 * brk + n) / 8) else none
  else if 8 * brk ≤ (8 * brk + n) % 2 ^ 32 then some brk
  else if (8 * brk + n) % 2 ^ 32 = 0 then none
  else some ((8 * brk + n) % 2 ^ 32 / 8)

/-- `morecore`: the heap, and `freep` or the null pointer. -/
def morecore (grant : Bool) (h : Heap) (nu : ℕ) : Except Stuck (Heap × ℕ) :=
  let nu := if nu < 4096 then 4096 else nu
  match sbrk grant h.brk (nu * 8 % 2 ^ 32) with
  | none => pure (h, 0)
  | some brk => do
      let hp := h.brk
      Heap.access { h with brk := brk } hp
      let h' ← free { h with brk := brk, size := update h.size hp nu } (hp + 1)
      pure (h', h'.freep)

/-- A round of the loop of `malloc`, with the heap, `prevp` and `p`. -/
def mallocBody (grant : Bool) (nunits : ℕ) :
    Heap × ℕ × ℕ → Except Stuck ((Heap × ℕ × ℕ) ⊕ (Heap × ℕ))
  | (h, prevp, p) => do
    h.access p
    if nunits ≤ h.size p then
      if h.size p = nunits then
        pure (.inr ({ h with ptr := update h.ptr prevp (h.ptr p), freep := prevp }, p + 1))
      else
        let q := plus p (h.size p - nunits)
        h.access q
        pure (.inr ({ h with
          size := update (update h.size p (h.size p - nunits)) q nunits
          freep := prevp }, q + 1))
    else if p = h.freep then do
      let (h', p') ← morecore grant h nunits
      if p' = 0 then pure (.inr (h', 0)) else pure (.inl (h', p', h'.ptr p'))
    else pure (.inl (h, p, h.ptr p))

/-- `(nbytes + sizeof(Header) - 1)/sizeof(Header) + 1` -/
def units (nbytes : ℕ) : ℕ := (nbytes + 7) % 2 ^ 32 / 8 + 1

/-- `if((prevp = freep) == 0) …` -/
def setUp (base : ℕ) (h : Heap) : Heap :=
  if h.freep = 0 then
    { h with ptr := update h.ptr base base, size := update h.size base 0, freep := base }
  else h

/-- `malloc`: the heap, and the first unit behind the header of the block, or the null
pointer. -/
def malloc (base : ℕ) (grant : Bool) (h : Heap) (nbytes : ℕ) : Except Stuck (Heap × ℕ) := do
  let h := setUp base h
  h.access h.freep
  loop Stuck.timeout (mallocBody grant (units nbytes)) rounds (h, h.freep, h.ptr h.freep)

/-! ## The list and the blocks -/

/-- **The heap** between `start` and the end of the process: the nodes of the circular list are
`base` and the free blocks, and the free blocks and those in use tile the heap. -/
structure Sound (base start : ℕ) (h : Heap) (free used : Finset ℕ) : Prop where
  base_pos : 0 < base
  base_lt : base < start
  start_le : start ≤ h.brk
  brk_le : 8 * h.brk ≤ kernBase
  base_size : h.size base = 0
  ring : Ring h.ptr (insert base free)
  tiles : Tiles (free ∪ used) h.size start h.brk
  disjoint : Disjoint free used

/-- No free block in `s` ends where the next one begins. -/
def Coalesced (h : Heap) (s : Finset ℕ) : Prop := ∀ a ∈ s, a + h.size a ≠ h.ptr a

/-- Nothing is written in the blocks `used`, neither their size nor what is behind the
header. -/
def Untouched (used : Finset ℕ) (h h' : Heap) : Prop :=
  ∀ b ∈ used, h'.size b = h.size b ∧
    ∀ u, b < u → u < b + h.size b → h'.ptr u = h.ptr u ∧ h'.size u = h.size u

theorem Untouched.refl (used : Finset ℕ) (h : Heap) : Untouched used h h :=
  fun _ _ => ⟨rfl, fun _ _ _ => ⟨rfl, rfl⟩⟩

theorem Untouched.trans {used : Finset ℕ} {h h' h'' : Heap} (hfst : Untouched used h h')
    (hsnd : Untouched used h' h'') : Untouched used h h'' := by
  intro b hb
  obtain ⟨hsize, hin⟩ := hfst b hb
  obtain ⟨hsize', hin'⟩ := hsnd b hb
  refine ⟨hsize'.trans hsize, fun u hbu hub => ?_⟩
  obtain ⟨hptr, hword⟩ := hin u hbu hub
  obtain ⟨hptr', hword'⟩ := hin' u hbu (by rwa [hsize])
  exact ⟨hptr'.trans hptr, hword'.trans hword⟩

namespace Sound

variable {base start b c p u w : ℕ} {h h' : Heap} {free used : Finset ℕ}

theorem start_le_of_mem (s : Sound base start h free used) (hb : b ∈ free ∪ used) : start ≤ b :=
  s.tiles.low b hb

theorem base_lt_of_mem (s : Sound base start h free used) (hb : b ∈ free ∪ used) : base < b :=
  lt_of_lt_of_le s.base_lt (s.start_le_of_mem hb)

/-- Pointers into the heap do not wrap around. -/
theorem plus_size (s : Sound base start h free used) (hb : b ∈ free ∪ used) :
    plus b (h.size b) = b + h.size b := by
  have hend := s.tiles.high b hb
  have hbrk := s.brk_le
  unfold kernBase at hbrk
  exact Nat.mod_eq_of_lt (by omega)

theorem plus_base (s : Sound base start h free used) : plus base (h.size base) = base := by
  have hlt := s.base_lt
  have hstart := s.start_le
  have hbrk := s.brk_le
  unfold kernBase at hbrk
  rw [s.base_size]
  exact Nat.mod_eq_of_lt (by omega)

theorem base_le_of_mem (s : Sound base start h free used) (hp : p ∈ insert base free) :
    base ≤ p := by
  rcases Finset.mem_insert.mp hp with rfl | hp
  · exact le_refl p
  · exact (s.base_lt_of_mem (Finset.mem_union_left _ hp)).le

/-- The nodes and the blocks lie in the process. -/
theorem lt_brk (s : Sound base start h free used) (hp : p ∈ insert base (free ∪ used)) :
    p < h.brk := by
  rcases Finset.mem_insert.mp hp with rfl | hp
  · exact lt_of_lt_of_le s.base_lt s.start_le
  · exact s.tiles.lt_high hp

theorem access_node (s : Sound base start h free used) (hp : p ∈ insert base free) :
    h.access p = .ok () := by
  refine Heap.access_of_lt (s.lt_brk ?_)
  rw [← Finset.insert_union]
  exact Finset.mem_union_left _ hp

theorem access_block (s : Sound base start h free used) (hb : b ∈ free ∪ used) :
    h.access b = .ok () :=
  Heap.access_of_lt (s.lt_brk (Finset.mem_insert_of_mem hb))

theorem base_notMem (s : Sound base start h free used) : base ∉ free ∪ used :=
  fun hb => lt_irrefl base (s.base_lt_of_mem hb)

/-- Behind the greatest node comes `base`. -/
theorem ptr_eq_base (s : Sound base start h free used) (hp : p ∈ insert base free)
    (hle : h.ptr p ≤ p) : h.ptr p = base := by
  rcases s.ring.ordered p hp with ⟨hlt, -⟩ | ⟨-, hall⟩
  · exact absurd hlt (not_lt.mpr hle)
  · exact le_antisymm (hall base (Finset.mem_insert_self _ _)).1
      (s.base_le_of_mem (s.ring.next_mem hp))

/-- **A free block ends before the next one begins**, if there is a next one. -/
theorem end_le_ptr (s : Sound base start h free used) (hb : b ∈ free) :
    h.ptr b = base ∨ (h.ptr b ∈ free ∧ b < h.ptr b ∧ b + h.size b ≤ h.ptr b) := by
  have hnode := Finset.mem_insert_of_mem (a := b) (b := base) hb
  rcases Finset.mem_insert.mp (s.ring.next_mem hnode) with heq | hptr
  · exact Or.inl heq
  · refine Or.inr ⟨hptr, ?_⟩
    have hlt : b < h.ptr b := by
      by_contra hle
      have heq := s.ptr_eq_base hnode (not_lt.mp hle)
      rw [heq] at hptr
      exact s.base_notMem (Finset.mem_union_left _ hptr)
    exact ⟨hlt, s.tiles.apart b (Finset.mem_union_left _ hb) _ (Finset.mem_union_left _ hptr) hlt⟩

/-- What is inside a block is not the header of another, or of the list. -/
theorem ne_of_inside (s : Sound base start h free used) (hb : b ∈ free ∪ used) (hbu : b < u)
    (hub : u < b + h.size b) (hw : w ∈ insert base (free ∪ used)) : u ≠ w := by
  rintro rfl
  rcases Finset.mem_insert.mp hw with rfl | hw
  · exact absurd (s.base_lt_of_mem hb) (not_lt.mpr hbu.le)
  · exact s.tiles.notMem_of_inside hb hbu hub hw

theorem size_lt (s : Sound base start h free used) (hb : b ∈ free ∪ used) :
    h.size b < 2 ^ 29 := by
  have hend := s.tiles.high b hb
  have hlow := s.base_lt_of_mem hb
  have hbrk := s.brk_le
  unfold kernBase at hbrk
  omega

/-! ## Linking in and merging -/

/-- **A block in use becomes a node** behind `p`. -/
theorem linkIn (s : Sound base start h free used) (hb : b ∈ used) (hp : p ∈ insert base free)
    (hpb : p < b) (hgap : b < h.ptr p ∨ h.ptr p ≤ p) :
    Sound base start { h with ptr := update (update h.ptr b (h.ptr p)) p b } (insert b free)
      (used.erase b) where
  base_pos := s.base_pos
  base_lt := s.base_lt
  start_le := s.start_le
  brk_le := s.brk_le
  base_size := s.base_size
  ring := by
    have hnode : ∀ a ∈ insert base free, a ≠ b := by
      rintro a ha rfl
      rcases Finset.mem_insert.mp ha with rfl | ha
      · exact s.base_notMem (Finset.mem_union_right _ hb)
      · exact Finset.disjoint_left.mp s.disjoint ha hb
    rw [Finset.insert_comm]
    refine s.ring.insert hp hpb hgap (update_self _ _ _) ?_ fun a ha hap => ?_
    · exact (update_of_ne (ne_of_gt hpb) _ _).trans (update_self _ _ _)
    · exact (update_of_ne hap _ _).trans (update_of_ne (hnode a ha) _ _)
  tiles := by
    rw [Finset.insert_union, ← Finset.union_insert, Finset.insert_erase hb]
    exact s.tiles
  disjoint := by
    rw [Finset.disjoint_insert_left]
    exact ⟨Finset.notMem_erase b used,
      Finset.disjoint_of_subset_right (Finset.erase_subset b used) s.disjoint⟩

/-- **A free block takes in the one that it touches.** -/
theorem absorb (s : Sound base start h free used) (hb : b ∈ free) (hptr : h.ptr b = c)
    (hc : c ∈ free) (htouch : b + h.size b = c) :
    Sound base start { h with
      ptr := update h.ptr b (h.ptr c)
      size := update h.size b (h.size b + h.size c) } (free.erase c) used where
  base_pos := s.base_pos
  base_lt := s.base_lt
  start_le := s.start_le
  brk_le := s.brk_le
  base_size := (update_of_ne (ne_of_lt (s.base_lt_of_mem (Finset.mem_union_left _ hb))) _ _).trans
    s.base_size
  ring := by
    have hbase : base ≠ c := by
      rintro rfl
      exact s.base_notMem (Finset.mem_union_left _ hc)
    have hpos := s.tiles.pos b (Finset.mem_union_left _ hb)
    rw [← Finset.erase_insert_of_ne hbase, ← hptr]
    exact s.ring.remove (Finset.mem_insert_of_mem hb) (by omega) (update_self _ _ _)
      fun a _ hab _ => update_of_ne hab _ _
  tiles := by
    have hcu : c ∉ used := Finset.disjoint_left.mp s.disjoint hc
    rw [← Finset.erase_eq_of_notMem hcu, ← Finset.erase_union_distrib]
    refine s.tiles.merge (Finset.mem_union_left _ hb) (Finset.mem_union_left _ hc) htouch
      (update_self _ _ _) fun a _ hab _ => update_of_ne hab _ _
  disjoint := Finset.disjoint_of_subset_left (Finset.erase_subset c free) s.disjoint

/-- Writing in headers leaves untouched what is inside the blocks. -/
theorem untouched_of_eq (s : Sound base start h free used) {k : Heap} (hk : k.size = h.size)
    (heq : ∀ u, u ∉ insert base (free ∪ used) → h'.ptr u = k.ptr u ∧ h'.size u = k.size u)
    {used' : Finset ℕ} (hsub : used' ⊆ used) (hsize : ∀ b ∈ used', h'.size b = k.size b) :
    Untouched used' k h' := by
  intro b hb
  refine ⟨hsize b hb, fun u hbu hub => heq u fun hu => ?_⟩
  rw [hk] at hub
  exact s.ne_of_inside (Finset.mem_union_right _ (hsub hb)) hbu hub hu rfl

end Sound

/-- What `free` has done before it links `p`: as soon as `p` leads to the block, the heap is
sound again. -/
structure Halfway (base start : ℕ) (h h' : Heap) (b p : ℕ) (free used : Finset ℕ) : Prop where
  sound : Sound base start { h' with ptr := update h'.ptr p b } free used
  block : b ∈ free
  node : p ∈ insert base free
  apart : ∀ a ∈ free, a ≠ p → a + h'.size a ≠ h'.ptr a
  size : h.size b ≤ h'.size b
  untouched : Untouched used h h'
  brk : h'.brk = h.brk

variable {base start b c p u w : ℕ} {h h' : Heap} {free used : Finset ℕ}

/-- **The block and the one above it.** -/
theorem mergeUp_spec (s : Sound base start h free used) (hco : Coalesced h free) (hb : b ∈ used)
    (hp : p ∈ insert base free) (hpb : p < b) (hgap : b < h.ptr p ∨ h.ptr p ≤ p) :
    ∃ h₁ free', mergeUp h b p = .ok h₁ ∧ Halfway base start h h₁ b p free' (used.erase b) := by
  have hlink := s.linkIn hb hp hpb hgap
  have hbu : b ∈ free ∪ used := Finset.mem_union_right _ hb
  have hbfree : b ∉ free := fun hbf => Finset.disjoint_left.mp s.disjoint hbf hb
  have hsub := Finset.erase_subset b used
  rw [mergeUp, s.access_block hbu, ok_bind, s.plus_size hbu]
  by_cases htouch : b + h.size b = h.ptr p
  · rw [if_pos htouch, s.access_node (s.ring.next_mem hp), ok_bind]
    have hpos := s.tiles.pos b hbu
    have hlow := s.base_lt_of_mem hbu
    have hc : h.ptr p ∈ free := (Finset.mem_insert.mp (s.ring.next_mem hp)).resolve_left (by omega)
    have hcb : h.ptr p ≠ b := by omega
    have hcp : h.ptr p ≠ p := by omega
    have hmod : (h.size b + h.size (h.ptr p)) % 2 ^ 32 = h.size b + h.size (h.ptr p) := by
      have hlt := s.size_lt hbu
      have hlt' := s.size_lt (Finset.mem_union_left used hc)
      exact Nat.mod_eq_of_lt (by omega)
    have hnext : update (update h.ptr b (h.ptr p)) p b b = h.ptr p := by
      rw [update_of_ne (ne_of_gt hpb), update_self]
    have hsound := hlink.absorb (Finset.mem_insert_self b free) hnext
      (Finset.mem_insert_of_mem hc) htouch
    rw [hmod]
    refine ⟨_, (insert b free).erase (h.ptr p), rfl, ⟨?_, Finset.mem_erase.mpr
      ⟨hcb.symm, Finset.mem_insert_self b free⟩, ?_, fun a ha hap => ?_, ?_, ?_, rfl⟩⟩
    · have hptr : update (update (update h.ptr b (h.ptr p)) p b) b
          (update (update h.ptr b (h.ptr p)) p b (h.ptr p)) =
            update (update h.ptr b (h.ptr (h.ptr p))) p b := by
        rw [update_of_ne hcp, update_of_ne hcb, update_comm (ne_of_lt hpb), update_idem]
      rw [← hptr]
      exact hsound
    · rcases Finset.mem_insert.mp hp with rfl | hp
      · exact Finset.mem_insert_self _ _
      · exact Finset.mem_insert_of_mem (Finset.mem_erase.mpr
          ⟨hcp.symm, Finset.mem_insert_of_mem hp⟩)
    · obtain ⟨-, ha⟩ := Finset.mem_erase.mp ha
      rcases Finset.mem_insert.mp ha with rfl | ha
      · -- the block ends now where the one above it did
        simp only [update_self]
        have happart := hco _ hc
        omega
      · have hab : a ≠ b := fun hab => hbfree (hab ▸ ha)
        simp only [update_of_ne hab]
        exact hco a ha
    · simp only [update_self]
      exact Nat.le_add_right _ _
    · refine s.untouched_of_eq rfl (fun u hu => ?_) hsub fun a ha => ?_
      · have hub : u ≠ b := by
          rintro rfl
          exact hu (Finset.mem_insert_of_mem hbu)
        exact ⟨update_of_ne hub _ _, update_of_ne hub _ _⟩
      · simp only [update_of_ne (Finset.ne_of_mem_erase ha)]
  · rw [if_neg htouch]
    refine ⟨_, insert b free, rfl, ⟨hlink, Finset.mem_insert_self b free, ?_, fun a ha hap => ?_,
      le_refl _, ?_, rfl⟩⟩
    · rw [Finset.insert_comm]
      exact Finset.mem_insert_of_mem hp
    · rcases Finset.mem_insert.mp ha with rfl | ha
      · simp only [update_self]
        exact htouch
      · have hab : a ≠ b := fun hab => hbfree (hab ▸ ha)
        simp only [update_of_ne hab]
        exact hco a ha
    · refine s.untouched_of_eq rfl (fun u hu => ?_) hsub fun _ _ => rfl
      have hub : u ≠ b := by
        rintro rfl
        exact hu (Finset.mem_insert_of_mem hbu)
      exact ⟨update_of_ne hub _ _, rfl⟩

/-- **The block and the one below it.** -/
theorem Halfway.mergeDown (m : Halfway base start h h' b p free used) (hpb : p < b) :
    ∃ free', Sound base start (mergeDown h' b p) free' used ∧
      Coalesced (mergeDown h' b p) free' ∧ p ∈ insert base free' ∧
      (∃ a ∈ free', h.size b ≤ (mergeDown h' b p).size a) ∧
      Untouched used h (mergeDown h' b p) ∧ (mergeDown h' b p).brk = h.brk := by
  have s := m.sound
  have hbn : b ∈ free ∪ used := Finset.mem_union_left _ m.block
  have hnode : p ∈ insert base (free ∪ used) := by
    rw [← Finset.insert_union]
    exact Finset.mem_union_left _ m.node
  have hwritten : ∀ u, u ∉ insert base (free ∪ used) → u ≠ p := by
    rintro u hu rfl
    exact hu hnode
  rw [Umalloc.mergeDown]
  by_cases htouch : p + h'.size p = b
  · have hpf : p ∈ free := by
      refine (Finset.mem_insert.mp m.node).resolve_left ?_
      rintro rfl
      have hsize : h'.size p = 0 := s.base_size
      omega
    have hplus : plus p (h'.size p) = p + h'.size p := s.plus_size (Finset.mem_union_left _ hpf)
    have hmod : (h'.size p + h'.size b) % 2 ^ 32 = h'.size p + h'.size b := by
      have hlt : h'.size p < 2 ^ 29 := s.size_lt (Finset.mem_union_left _ hpf)
      have hlt' : h'.size b < 2 ^ 29 := s.size_lt hbn
      exact Nat.mod_eq_of_lt (by omega)
    rw [hplus, if_pos htouch, hmod]
    have hsound := s.absorb hpf (update_self p b h'.ptr) m.block htouch
    have hptr : update (update h'.ptr p b) p (update h'.ptr p b b) =
        update h'.ptr p (h'.ptr b) := by
      rw [update_idem, update_of_ne (ne_of_gt hpb)]
    have hpin : p ∈ free.erase b := Finset.mem_erase.mpr ⟨ne_of_lt hpb, hpf⟩
    refine ⟨free.erase b, ?_, fun a ha => ?_, Finset.mem_insert_of_mem hpin, ⟨p, hpin, ?_⟩, ?_,
      m.brk⟩
    · rw [← hptr]
      exact hsound
    · obtain ⟨-, ha⟩ := Finset.mem_erase.mp ha
      by_cases hap : a = p
      · rw [hap]
        simp only [update_self]
        have happart := m.apart b m.block (ne_of_gt hpb)
        omega
      · simp only [update_of_ne hap]
        exact m.apart a ha hap
    · simp only [update_self]
      exact m.size.trans (Nat.le_add_left _ _)
    · refine m.untouched.trans (Sound.untouched_of_eq (k := h') s rfl (fun u hu => ?_)
        (Finset.Subset.refl _) fun a ha => ?_)
      · exact ⟨update_of_ne (hwritten u hu) _ _, update_of_ne (hwritten u hu) _ _⟩
      · refine update_of_ne ?_ _ _
        rintro rfl
        exact Finset.disjoint_left.mp s.disjoint hpf ha
  · have hplus : plus p (h'.size p) = p + h'.size p := by
      rcases Finset.mem_insert.mp m.node with rfl | hpf
      · have hsize : h'.size p = 0 := s.base_size
        have hbase : plus p (h'.size p) = p := s.plus_base
        rw [hbase, hsize]
        rfl
      · exact s.plus_size (Finset.mem_union_left _ hpf)
    rw [hplus, if_neg htouch]
    refine ⟨free, s, fun a ha => ?_, m.node, ⟨b, m.block, m.size⟩, ?_, m.brk⟩
    · by_cases hap : a = p
      · rw [hap]
        simp only [update_self]
        exact htouch
      · simp only [update_of_ne hap]
        exact m.apart a ha hap
    · refine m.untouched.trans (Sound.untouched_of_eq (k := h') s rfl (fun u hu => ?_)
        (Finset.Subset.refl _) fun _ _ => rfl)
      exact ⟨update_of_ne (hwritten u hu) _ _, rfl⟩

/-! ## The search for the place -/

/-- A heap between two calls, once the list has been set up. -/
structure Ready (base start : ℕ) (h : Heap) (free used : Finset ℕ) : Prop where
  sound : Sound base start h free used
  coalesced : Coalesced h free
  freep : h.freep ∈ insert base free

/-- The nodes are addresses below the end of the process. -/
theorem Sound.circle_length (s : Sound base start h free used) {l : List ℕ}
    (hl : Circle h.ptr p l) (hs : (p :: l).toFinset = insert base free) : l.length < h.brk := by
  have hsub : (p :: l).toFinset ⊆ Finset.range h.brk := by
    intro a ha
    rw [hs] at ha
    rw [Finset.mem_range]
    rcases Finset.mem_insert.mp ha with rfl | ha
    · exact lt_of_lt_of_le s.base_lt s.start_le
    · exact s.tiles.lt_high (Finset.mem_union_left _ ha)
  have hcard := Finset.card_le_card hsub
  rw [List.toFinset_card_of_nodup hl.nodup, Finset.card_range, List.length_cons] at hcard
  exact hcard

/-- **The loop of `free` ends** at the node that the block belongs behind. -/
theorem place_spec (r : Ready base start h free used) (hb : b ∈ used) :
    ∃ p, loop Stuck.timeout (placeBody h b) rounds h.freep = .ok p ∧
      p ∈ insert base free ∧ p < b ∧ (b < h.ptr p ∨ h.ptr p ≤ p) := by
  have s := r.sound
  have hbu : b ∈ free ∪ used := Finset.mem_union_right _ hb
  have hbnode : b ∉ insert base free := by
    intro hmem
    rcases Finset.mem_insert.mp hmem with rfl | hbf
    · exact s.base_notMem hbu
    · exact Finset.disjoint_left.mp s.disjoint hbf hb
  obtain ⟨q, hq, hqb, hgap⟩ := s.ring.exists_gap (Finset.mem_insert_self base free)
    (s.base_lt_of_mem hbu) hbnode
  obtain ⟨l, hl, hs⟩ := s.ring.circle h.freep r.freep
  have hmem : ∀ a, a ∈ h.freep :: l ↔ a ∈ insert base free := by
    intro a
    rw [← hs, List.mem_toFinset]
  -- the loop leaves at the latest at `q`, and wherever it leaves the block belongs there
  have hlength : l.length < rounds := by
    have hlt := s.circle_length hl hs
    have hbrk := s.brk_le
    unfold kernBase at hbrk
    unfold rounds
    omega
  refine loop_spec (I := fun l p => p ∈ insert base free ∧ Visits h.freep h.ptr (h.ptr p) l ∧
    q ∈ p :: l) ?_ ?_ ⟨r.freep, hl, (hmem q).mpr hq⟩ hlength
  · rintro p ⟨-, -, hqp⟩
    rw [List.mem_singleton] at hqp
    subst hqp
    refine ⟨q, ?_, hq, hqb, hgap⟩
    rw [placeBody, s.access_node hq, ok_bind]
    split
    · rfl
    · rename_i hnot
      have hwrap := hgap.resolve_left fun h => hnot ⟨hqb, h⟩
      rw [if_pos ⟨hwrap, Or.inl hqb⟩]
      rfl
  · rintro a m p ⟨hp, ⟨ha, -, hrest⟩, hqp⟩
    rw [placeBody, s.access_node hp, ok_bind]
    split
    · rename_i hin
      exact Or.inr ⟨p, rfl, hp, hin.1, Or.inl hin.2⟩
    · rename_i hnot
      split
      · rename_i hwrap
        refine Or.inr ⟨p, rfl, hp, hwrap.2.resolve_right ?_, Or.inr hwrap.1⟩
        rw [s.ptr_eq_base hp hwrap.1]
        exact not_lt.mpr (s.base_lt_of_mem hbu).le
      · rename_i hnot'
        refine Or.inl ⟨h.ptr p, rfl, s.ring.next_mem hp, ?_, ?_⟩
        · rw [ha]
          exact hrest
        · rcases List.mem_cons.mp hqp with rfl | hqp
          · rcases hgap with hlt | hle
            · exact absurd ⟨hqb, hlt⟩ hnot
            · exact absurd ⟨hle, Or.inl hqb⟩ hnot'
          · rwa [ha]

/-- **`free`** of a block in use ends; it leaves no two free blocks side by side, the block is
part of a free one, and the other blocks are untouched. -/
theorem free_spec (r : Ready base start h free used) (hb : b ∈ used) :
    ∃ h' free', Umalloc.free h (b + 1) = .ok h' ∧ Ready base start h' free' (used.erase b) ∧
      (∃ a ∈ free', h.size b ≤ h'.size a) ∧ Untouched (used.erase b) h h' ∧ h'.brk = h.brk := by
  obtain ⟨p, hplace, hp, hpb, hgap⟩ := place_spec r hb
  obtain ⟨h₁, free₁, hmerge, hhalf⟩ := mergeUp_spec r.sound r.coalesced hb hp hpb hgap
  obtain ⟨free₂, hsound, hco, hnode, hblock, huntouched, hbrk⟩ := hhalf.mergeDown hpb
  refine ⟨{ mergeDown h₁ b p with freep := p }, free₂, ?_, ⟨?_, hco, hnode⟩, hblock,
    huntouched, hbrk⟩
  · rw [Umalloc.free, Nat.add_sub_cancel, hplace, ok_bind, hmerge, ok_bind]
    rfl
  · exact ⟨hsound.base_pos, hsound.base_lt, hsound.start_le, hsound.brk_le, hsound.base_size,
      hsound.ring, hsound.tiles, hsound.disjoint⟩

end Umalloc
end Xv6
end SystemsProjects

import SystemsProjects.Lib.Holds
import SystemsProjects.Xv6.Inodes

/-!
# Which blocks belong to which file

A file holds blocks through its slots: the thirteen addresses of its inode, the last of which is
the indirect block, and the words of that block.  What holds of the disk is that each block in use
is in front of the data or in one slot, and that the slots of a file that hold a block are those
its length calls for.

A slot that is empty takes a block through `balloc`.  Every step of `bmap` that allocates is of
this kind: it changes one slot and no other, and leaves the bytes of all files and all the inodes
on the disk as they are.
-/

namespace SystemsProjects
namespace Xv6
namespace Files

open Lib Function

variable {sb : Superblock} {d d' : Disk} {b c : ℕ}

/-! ## The bitmap -/

/-- The number of the blocks in front of the data. -/
def Superblock.nmeta (sb : Superblock) : ℕ := sb.size - sb.nblocks

/-- The block is marked in the bitmap. -/
def used (sb : Superblock) (d : Disk) (b : ℕ) : Prop :=
  b < sb.size ∧ BitSet.get (d (sb.bblock b)) (b % bpb) = true

theorem Superblock.bblock_lt (hb : b < sb.size) : sb.bblock b < sb.nmeta := by
  have hfits := sb.bitmap_fits
  simp only [Superblock.bblock, Superblock.nmeta, bpb, bsize] at hfits ⊢
  omega

theorem Superblock.iblock_lt {inum : ℕ} (h : inum < sb.ninodes) (b : ℕ) :
    sb.iblock inum < sb.bblock b := by
  have hfits := sb.inodes_fit
  simp only [Superblock.bblock, Superblock.iblock, ipb, bpb, bsize] at hfits ⊢
  omega

theorem Superblock.iblock_lt_nmeta {inum : ℕ} (h : inum < sb.ninodes) :
    sb.iblock inum < sb.nmeta := by
  have hfits := sb.bitmap_fits
  have hlt := sb.iblock_lt h 0
  simp only [Superblock.bblock, Superblock.nmeta, bpb, bsize] at hfits hlt ⊢
  omega

theorem Superblock.nmeta_pos (sb : Superblock) : 0 < sb.nmeta := by
  have hfits := sb.bitmap_fits
  simp only [Superblock.nmeta, bpb, bsize] at hfits ⊢
  omega

theorem Superblock.bblock_eq_iff :
    sb.bblock b = sb.bblock c ∧ b % bpb = c % bpb ↔ b = c := by
  simp only [Superblock.bblock, bpb, bsize]
  omega

theorem used_congr (h : b < sb.size → d' (sb.bblock b) = d (sb.bblock b)) :
    used sb d' b ↔ used sb d b :=
  and_congr_right fun hb => by rw [h hb]

theorem used_set (hb : b < sb.size) :
    used sb (update d (sb.bblock b) (BitSet.set (d (sb.bblock b)) (b % bpb))) c ↔
      used sb d c ∨ c = b := by
  rw [used, used]
  by_cases hblock : sb.bblock c = sb.bblock b
  · have hiff : c % bpb = b % bpb ↔ c = b :=
      ⟨fun h => Superblock.bblock_eq_iff.mp ⟨hblock, h⟩, fun h => h ▸ rfl⟩
    rw [hblock, update_self, BitSet.get_set, Bool.or_eq_true, decide_eq_true_eq, hiff]
    constructor
    · tauto
    · rintro (h | rfl)
      · exact ⟨h.1, Or.inl h.2⟩
      · exact ⟨hb, Or.inr rfl⟩
  · have hne : c ≠ b := fun h => hblock (h ▸ rfl)
    rw [update_of_ne hblock, or_iff_left hne]

theorem used_clear :
    used sb (update d (sb.bblock b) (BitSet.clear (d (sb.bblock b)) (b % bpb))) c ↔
      used sb d c ∧ c ≠ b := by
  rw [used, used]
  by_cases hblock : sb.bblock c = sb.bblock b
  · have hiff : c % bpb = b % bpb ↔ c = b :=
      ⟨fun h => Superblock.bblock_eq_iff.mp ⟨hblock, h⟩, fun h => h ▸ rfl⟩
    rw [hblock, update_self, BitSet.get_clear, Bool.and_eq_true, decide_eq_true_eq, ne_eq, hiff]
    tauto
  · have hne : c ≠ b := fun h => hblock (h ▸ rfl)
    rw [update_of_ne hblock]
    tauto

/-! ## `balloc` and `bfree` -/

/-- The loops of `balloc` find the first block that is not in use, if there is one. -/
theorem findFree_eq_some {k bi : ℕ} (h : findFree sb d = some (k, bi)) :
    k + bi < sb.size ∧ sb.bblock k = sb.bblock (k + bi) ∧ (k + bi) % bpb = bi ∧
      ¬ used sb d (k + bi) := by
  obtain ⟨j, -, hj⟩ := List.exists_of_findSome?_eq_some h
  obtain ⟨bi', hfind, hpair⟩ := Option.map_eq_some_iff.mp hj
  obtain ⟨rfl, rfl⟩ := Prod.mk.inj hpair
  have hmem := List.mem_range.mp (List.mem_of_find?_eq_some hfind)
  have hclear := List.find?_some hfind
  rw [Nat.lt_min] at hmem
  have hblock : sb.bblock (j * bpb) = sb.bblock (j * bpb + bi') := by
    simp only [Superblock.bblock, bpb, bsize] at hmem ⊢
    omega
  have hmod : (j * bpb + bi') % bpb = bi' := by
    simp only [bpb, bsize] at hmem ⊢
    omega
  refine ⟨by omega, hblock, hmod, fun hused => ?_⟩
  rw [used, ← hblock, hmod] at hused
  rw [hused.2] at hclear
  cases hclear

/-- The block is no block of the bitmap. -/
def Superblock.NotBitmap (sb : Superblock) (c : ℕ) : Prop := ∀ b < sb.size, c ≠ sb.bblock b

theorem Superblock.notBitmap_of_le (h : sb.nmeta ≤ c) : sb.NotBitmap c :=
  fun _ hb => (Nat.lt_of_lt_of_le (Superblock.bblock_lt hb) h).ne'

theorem Superblock.notBitmap_iblock {inum : ℕ} (h : inum < sb.ninodes) :
    sb.NotBitmap (sb.iblock inum) :=
  fun b _ => (Superblock.iblock_lt h b).ne

/-- **What `balloc` does**, as long as the blocks in front of the data are marked: it takes a
block of zeros that was free, and marks it. -/
structure Allocated (sb : Superblock) (d d' : Disk) (b : ℕ) : Prop where
  free : ¬ used sb d b
  lt : b < sb.size
  ge : sb.nmeta ≤ b
  used : ∀ c, used sb d' c ↔ used sb d c ∨ c = b
  zero : d' b = fun _ => 0
  same : ∀ c, c ≠ b → sb.NotBitmap c → d' c = d c

theorem balloc_ok (hmeta : ∀ c < sb.nmeta, used sb d c) (h : balloc sb d = .ok (d', b)) :
    Allocated sb d d' b := by
  rw [balloc] at h
  split at h
  · rename_i k bi hfind
    obtain ⟨hlt, hblock, hmod, hfree⟩ := findFree_eq_some hfind
    obtain ⟨rfl, rfl⟩ := Prod.mk.inj (Except.ok.inj h)
    have hge : sb.nmeta ≤ k + bi := Nat.le_of_not_lt fun h => hfree (hmeta _ h)
    have hne : ∀ c, c < sb.size → sb.bblock c ≠ k + bi := fun c hc =>
      (Nat.lt_of_lt_of_le (Superblock.bblock_lt hc) hge).ne
    refine ⟨hfree, hlt, hge, fun c => ?_, update_self _ _ _, fun c hc hbit => ?_⟩
    · have hset : used sb (update d (sb.bblock k) (BitSet.set (d (sb.bblock k)) bi)) c ↔
          used sb d c ∨ c = k + bi := by
        have hset := used_set (d := d) (c := c) hlt
        rwa [hmod, ← hblock] at hset
      rw [← hset]
      by_cases hc : c < sb.size
      · rw [used, used, bzero, update_of_ne (hne c hc)]
      · exact iff_of_false (fun h => hc h.1) fun h => hc h.1
    · rw [bzero, update_of_ne hc, update_of_ne (hbit k (by omega))]
  · cases h

theorem balloc_panics {p : Panic} (h : balloc sb d = .error p) : p = .outOfBlocks := by
  rw [balloc] at h
  split at h
  · cases h
  · exact (Except.error.inj h).symm

/-- **What `bfree` does** for a block that is in use. -/
theorem bfree_ok (hb : used sb d b) :
    ∃ d', bfree sb d b = .ok d' ∧ (∀ c, used sb d' c ↔ used sb d c ∧ c ≠ b) ∧
      ∀ c, sb.NotBitmap c → d' c = d c := by
  refine ⟨_, if_pos hb.2, fun c => used_clear, fun c hc => ?_⟩
  exact update_of_ne (hc b hb.1) _ _

/-! ## Slots -/

/-- An address of an inode, or a word of its indirect block. -/
abbrev Slot := Fin 13 ⊕ Fin 128

/-- The block that a slot names, or 0. -/
def slotBlock (d : Disk) (ip : Inode) : Slot → ℕ
  | .inl k => ip.addrs k
  | .inr j => if ip.indirect = 0 then 0 else word d ip.indirect j

/-- The slot of block `bn` of a file. -/
def dataSlot (bn : ℕ) : Slot :=
  if h : bn < ndirect then .inl ⟨bn, lt_of_direct h⟩
  else .inr ⟨(bn - ndirect) % 128, Nat.mod_lt _ (Nat.succ_pos 127)⟩

theorem dataSlot_of_lt {bn : ℕ} (h : bn < ndirect) :
    dataSlot bn = .inl ⟨bn, lt_of_direct h⟩ := dif_pos h

theorem dataSlot_of_le {bn : ℕ} (h : ndirect ≤ bn) :
    dataSlot bn = .inr ⟨(bn - ndirect) % 128, Nat.mod_lt _ (Nat.succ_pos 127)⟩ :=
  dif_neg (Nat.not_lt_of_le h)

theorem dataSlot_ne_indirect (bn : ℕ) : dataSlot bn ≠ .inl 12 := by
  rcases Nat.lt_or_ge bn ndirect with h | h
  · rw [dataSlot_of_lt h]
    intro heq
    exact h.ne (congrArg Fin.val (Sum.inl.inj heq))
  · rw [dataSlot_of_le h]
    exact Sum.inr_ne_inl

theorem dataSlot_injective {k l : ℕ} (hk : k < maxfile) (hl : l < maxfile)
    (h : dataSlot k = dataSlot l) : k = l := by
  simp only [maxfile, ndirect, nindirect, bsize] at hk hl
  rcases Nat.lt_or_ge k ndirect with hk' | hk' <;> rcases Nat.lt_or_ge l ndirect with hl' | hl'
  · rw [dataSlot_of_lt hk', dataSlot_of_lt hl'] at h
    exact congrArg Fin.val (Sum.inl.inj h)
  · rw [dataSlot_of_lt hk', dataSlot_of_le hl'] at h
    cases h
  · rw [dataSlot_of_le hk', dataSlot_of_lt hl'] at h
    cases h
  · rw [dataSlot_of_le hk', dataSlot_of_le hl'] at h
    have hval : (k - ndirect) % 128 = (l - ndirect) % 128 := congrArg Fin.val (Sum.inr.inj h)
    simp only [ndirect] at hk' hl' hval
    omega

/-- The blocks that the files hold. -/
def held {ι : Type*} (d : Disk) (ino : ι → Inode) (s : ι × Slot) : Option ℕ :=
  if slotBlock d (ino s.1) s.2 = 0 then none else some (slotBlock d (ino s.1) s.2)

section Held

variable {ι : Type*} {ino : ι → Inode} {s : ι × Slot}

theorem held_eq_some : held d ino s = some b ↔ slotBlock d (ino s.1) s.2 = b ∧ b ≠ 0 := by
  rw [held]
  split
  · rename_i h
    simp only [reduceCtorEq, false_iff, not_and, ne_eq, not_not]
    exact fun hb => hb.symm.trans h
  · rename_i h
    rw [Option.some_inj]
    exact ⟨fun hb => ⟨hb, hb ▸ h⟩, And.left⟩

theorem held_eq_none : held d ino s = none ↔ slotBlock d (ino s.1) s.2 = 0 := by
  rw [held]
  split
  · exact iff_of_true rfl ‹_›
  · rename_i h
    exact iff_of_false (Option.some_ne_none _) h

/-- The blocks that are held after a slot was changed. -/
theorem held_update [DecidableEq ι] {ino' : ι → Inode} {i : ι} {s : Slot}
    (h : ∀ i' s', slotBlock d' (ino' i') s' =
      if i' = i ∧ s' = s then b else slotBlock d (ino i') s') :
    held d' ino' = update (held d ino) (i, s) (if b = 0 then none else some b) := by
  funext t
  obtain ⟨i', s'⟩ := t
  by_cases ht : i' = i ∧ s' = s
  · rw [held, h, if_pos ht, ht.1, ht.2, update_self]
  · have hne : (i', s') ≠ (i, s) := fun heq => ht (Prod.mk.inj heq)
    rw [update_of_ne hne, held, held, h, if_neg ht]

end Held

variable {ino : Fin sb.ninodes → Inode} {i : Fin sb.ninodes} {s : Slot}

/-- Each block in use is in front of the data or in one slot. -/
abbrev Owned (sb : Superblock) (d : Disk) (ino : Fin sb.ninodes → Inode) : Prop :=
  SoleHolder (· < sb.nmeta) (used sb d) (held d ino)

theorem Owned.used_meta (h : Owned sb d ino) : ∀ c < sb.nmeta, used sb d c :=
  fun c hc => (h.used_iff c).mpr (Or.inl hc)

/-- A block in a slot. -/
theorem Owned.slot (h : Owned sb d ino) (hb : slotBlock d (ino i) s ≠ 0) :
    used sb d (slotBlock d (ino i) s) ∧ sb.nmeta ≤ slotBlock d (ino i) s := by
  have hheld : held d ino (i, s) = some (slotBlock d (ino i) s) := held_eq_some.mpr ⟨rfl, hb⟩
  exact ⟨h.used_of_slot hheld, Nat.le_of_not_lt (h.fresh _ _ hheld)⟩

theorem Owned.indirect_ge (h : Owned sb d ino) (hind : (ino i).indirect ≠ 0) :
    sb.nmeta ≤ (ino i).indirect :=
  (h.slot (s := .inl 12) hind).2

theorem Owned.slot_inj (h : Owned sb d ino) {j : Fin sb.ninodes} {t : Slot}
    (hb : slotBlock d (ino i) s ≠ 0) (heq : slotBlock d (ino i) s = slotBlock d (ino j) t) :
    i = j ∧ s = t :=
  Prod.mk.inj (h.injective (i, s) (j, t) _ (held_eq_some.mpr ⟨rfl, hb⟩)
    (held_eq_some.mpr ⟨heq.symm, hb⟩))

/-! ## A slot takes a block -/

/-- **What a step of `bmap` does when it allocates**: an empty slot takes a block that was free. -/
structure Grabbed (sb : Superblock) (d : Disk) (ino : Fin sb.ninodes → Inode)
    (i : Fin sb.ninodes) (s : Slot) (d' : Disk) (ip' : Inode) (b : ℕ) : Prop where
  empty : slotBlock d (ino i) s = 0
  free : ¬ used sb d b
  pos : b ≠ 0
  lt : b < sb.size
  used : ∀ c, used sb d' c ↔ used sb d c ∨ c = b
  slot : ∀ i' s', slotBlock d' (update ino i ip' i') s' =
    if i' = i ∧ s' = s then b else slotBlock d (ino i') s'
  data : ∀ i' s', s' ≠ .inl 12 → slotBlock d (ino i') s' ≠ 0 →
    d' (slotBlock d (ino i') s') = d (slotBlock d (ino i') s')
  disk : ∀ inum < sb.ninodes, d' (sb.iblock inum) = d (sb.iblock inum)
  same : ip' = { ino i with addrs := ip'.addrs }

theorem Grabbed.owned {ip' : Inode} (h : Grabbed sb d ino i s d' ip' b) (howned : Owned sb d ino) :
    Owned sb d' (update ino i ip') := by
  have hheld := held_update h.slot
  rw [if_neg h.pos] at hheld
  rw [Owned, hheld]
  exact howned.take (held_eq_none.mpr h.empty) h.free h.used

theorem word_zero {j : ℕ} (h : d b = fun _ => 0) : word d b j = 0 := by
  rw [word, h]
  rfl

/-- What a step that takes block `b` leaves of the blocks that are held. -/
theorem Allocated.same_slot (ha : Allocated sb d d' b) (h : Owned sb d ino)
    (hb : slotBlock d (ino i) s ≠ 0) :
    d' (slotBlock d (ino i) s) = d (slotBlock d (ino i) s) ∧ slotBlock d (ino i) s ≠ b := by
  obtain ⟨hused, hge⟩ := h.slot hb
  have hne : slotBlock d (ino i) s ≠ b := fun heq => ha.free (heq ▸ hused)
  exact ⟨ha.same _ hne (Superblock.notBitmap_of_le hge), hne⟩

theorem Allocated.same_word (ha : Allocated sb d d' b) (h : Owned sb d ino)
    (hind : (ino i).indirect ≠ 0) (j : ℕ) :
    word d' (ino i).indirect j = word d (ino i).indirect j := by
  rw [word, word]
  exact congrArg (fun f => value f (4 * j) 4) (ha.same_slot (s := .inl 12) h hind).1

theorem Allocated.same_iblock (ha : Allocated sb d d' b) {inum : ℕ} (h : inum < sb.ninodes) :
    d' (sb.iblock inum) = d (sb.iblock inum) :=
  ha.same _ (Nat.lt_of_lt_of_le (Superblock.iblock_lt_nmeta h) ha.ge).ne
    (Superblock.notBitmap_iblock h)

theorem Inode.indirect_setAddr (ip : Inode) : (ip.setAddr 12 b).indirect = b := by
  simp only [Inode.indirect, Inode.setAddr, update_self]

theorem word_setWord_self {a j v : ℕ} (hv : v < 2 ^ 32) : word (setWord d a j v) a j = v := by
  rw [word, setWord, update_self, value_put_self]
  exact Nat.mod_eq_of_lt hv

theorem word_setWord_of_ne {a j j' v : ℕ} (h : j' ≠ j) :
    word (setWord d a j v) a j' = word d a j' := by
  rw [word, setWord, update_self, value_put_of_disjoint (by omega)]
  rfl

theorem setWord_of_ne {a j v c : ℕ} (h : c ≠ a) : setWord d a j v c = d c :=
  update_of_ne h _ _

/-- The slot is an address of the inode. -/
theorem grabbed_addr (h : Owned sb d ino) {k : Fin 13} (hk : (ino i).addrs k = 0)
    (ha : Allocated sb d d' b) : Grabbed sb d ino i (.inl k) d' ((ino i).setAddr k b) b where
  empty := hk
  free := ha.free
  pos := (Nat.lt_of_lt_of_le sb.nmeta_pos ha.ge).ne'
  lt := ha.lt
  used := ha.used
  slot i' s' := by
    by_cases hi : i' = i
    · subst hi
      rw [update_self]
      cases s' with
      | inl k' => simp only [slotBlock, Inode.setAddr, update_apply, Sum.inl.injEq, true_and]
      | inr j =>
        simp only [slotBlock, reduceCtorEq, and_false, if_false]
        by_cases h12 : k = 12
        · subst h12
          have hnone : (ino i').indirect = 0 := hk
          rw [Inode.indirect_setAddr, word_zero ha.zero, ite_self, if_pos hnone]
        · have hold : ((ino i').setAddr k b).indirect = (ino i').indirect :=
            update_of_ne (Ne.symm h12) _ _
          rw [hold]
          split
          · rfl
          · exact ha.same_word h ‹_› j
    · rw [update_of_ne hi, if_neg fun hs => hi hs.1]
      cases s' with
      | inl k' => rfl
      | inr j =>
        simp only [slotBlock]
        split
        · rfl
        · exact ha.same_word h ‹_› j
  data i' s' _ hb := (ha.same_slot h hb).1
  disk inum hinum := ha.same_iblock hinum
  same := rfl

/-- The slot is a word of the indirect block. -/
theorem grabbed_word (h : Owned sb d ino) {j : Fin 128} (hind : (ino i).indirect ≠ 0)
    (hj : word d (ino i).indirect j = 0) (ha : Allocated sb d d' b) :
    Grabbed sb d ino i (.inr j) (setWord d' (ino i).indirect j b) (ino i) b where
  empty := by
    rw [slotBlock, if_neg hind]
    exact hj
  free := ha.free
  pos := (Nat.lt_of_lt_of_le sb.nmeta_pos ha.ge).ne'
  lt := ha.lt
  used c := by
    rw [← ha.used]
    refine used_congr fun hc => setWord_of_ne ?_
    exact (Nat.lt_of_lt_of_le (Superblock.bblock_lt hc) (h.indirect_ge hind)).ne
  slot i' s' := by
    cases s' with
    | inl k => rw [update_eq_self, if_neg fun hs => Sum.inl_ne_inr hs.2]; rfl
    | inr j' =>
      rw [update_eq_self]
      simp only [slotBlock, Sum.inr.injEq]
      by_cases hi : i' = i
      · subst hi
        rw [if_neg hind, if_neg hind]
        by_cases hj' : j' = j
        · rw [if_pos ⟨rfl, hj'⟩, hj']
          exact word_setWord_self (Nat.lt_trans ha.lt (Nat.lt_trans sb.size_lt (by decide)))
        · rw [if_neg fun hs => hj' hs.2, word_setWord_of_ne fun hval => hj' (Fin.ext hval)]
          exact ha.same_word h hind j'
      · have hneither : ¬ (i' = i ∧ j' = j) := fun hs => hi hs.1
        rw [if_neg hneither]
        by_cases hother : (ino i').indirect = 0
        · rw [if_pos hother, if_pos hother]
        · rw [if_neg hother, if_neg hother]
          have hne : (ino i').indirect ≠ (ino i).indirect := fun heq =>
            hi (h.slot_inj (s := .inl 12) (t := .inl 12) hother heq).1
          rw [← ha.same_word h hother, word, setWord_of_ne hne]
          rfl
  data i' s' hs' hb := by
    have hne : slotBlock d (ino i') s' ≠ (ino i).indirect := fun heq =>
      hs' (h.slot_inj (t := .inl 12) hb heq).2
    rw [setWord_of_ne hne]
    exact (ha.same_slot h hb).1
  disk inum hinum := by
    have hlt := Superblock.iblock_lt_nmeta hinum
    rw [setWord_of_ne (Nat.lt_of_lt_of_le hlt (h.indirect_ge hind)).ne]
    exact ha.same_iblock hinum
  same := rfl

/-! ## `bmap` -/

/-- **What `bmap` does to the disk**: some of the slots in `S` take blocks. -/
structure Grown (sb : Superblock) (d : Disk) (ino : Fin sb.ninodes → Inode)
    (i : Fin sb.ninodes) (S : Slot → Prop) (d' : Disk) (ip' : Inode) : Prop where
  owned : Owned sb d' (update ino i ip')
  keeps : ∀ i' s', slotBlock d (ino i') s' ≠ 0 →
    slotBlock d' (update ino i ip' i') s' = slotBlock d (ino i') s'
  only : ∀ i' s', slotBlock d' (update ino i ip' i') s' ≠ 0 →
    slotBlock d (ino i') s' ≠ 0 ∨ (i' = i ∧ S s')
  data : ∀ i' s', s' ≠ .inl 12 → slotBlock d (ino i') s' ≠ 0 →
    d' (slotBlock d (ino i') s') = d (slotBlock d (ino i') s')
  disk : ∀ inum < sb.ninodes, d' (sb.iblock inum) = d (sb.iblock inum)
  same : ip' = { ino i with addrs := ip'.addrs }

theorem Grown.refl (h : Owned sb d ino) (S : Slot → Prop) : Grown sb d ino i S d (ino i) where
  owned := by
    rw [update_eq_self]
    exact h
  keeps i' s' _ := by rw [update_eq_self]
  only i' s' hb := by
    rw [update_eq_self] at hb
    exact Or.inl hb
  data _ _ _ _ := rfl
  disk _ _ := rfl
  same := rfl

theorem Grabbed.grown {ip' : Inode} (h : Grabbed sb d ino i s d' ip' b) (howned : Owned sb d ino)
    {S : Slot → Prop} (hs : S s) : Grown sb d ino i S d' ip' where
  owned := h.owned howned
  keeps i' s' hb := by
    rw [h.slot, if_neg]
    rintro ⟨rfl, rfl⟩
    exact hb h.empty
  only i' s' hb := by
    rw [h.slot] at hb
    split_ifs at hb with heq
    · exact Or.inr ⟨heq.1, heq.2 ▸ hs⟩
    · exact Or.inl hb
  data := h.data
  disk := h.disk
  same := h.same

theorem Grown.trans {ip' ip'' : Inode} {d'' : Disk} {S : Slot → Prop}
    (h : Grown sb d ino i S d' ip') (h' : Grown sb d' (update ino i ip') i S d'' ip'') :
    Grown sb d ino i S d'' ip'' := by
  obtain ⟨howned, hkeeps, honly, hdata, hdisk, hsame⟩ := h
  obtain ⟨howned', hkeeps', honly', hdata', hdisk', hsame'⟩ := h'
  rw [update_idem] at howned' hkeeps' honly'
  rw [update_self] at hsame'
  refine ⟨howned', fun i' s' hb => ?_, fun i' s' hb => ?_, fun i' s' hs' hb => ?_,
    fun inum hinum => (hdisk' inum hinum).trans (hdisk inum hinum), ?_⟩
  · rw [hkeeps' i' s' (by rwa [hkeeps i' s' hb]), hkeeps i' s' hb]
  · rcases honly' i' s' hb with hb | hb
    · exact honly i' s' hb
    · exact Or.inr hb
  · have hstep := hdata' i' s' hs' (by rwa [hkeeps i' s' hb])
    rw [hkeeps i' s' hb] at hstep
    exact hstep.trans (hdata i' s' hs' hb)
  · rw [hsame', hsame]

/-- An address of an inode after it was mapped. -/
theorem mapAddr_ok {ip' : Inode} {k : Fin 13} (h : Owned sb d ino)
    (hmap : mapAddr sb d (ino i) k = .ok (d', ip', b)) {S : Slot → Prop} (hS : S (.inl k)) :
    Grown sb d ino i S d' ip' ∧ ip'.addrs k = b ∧ b ≠ 0 ∧
      ((ino i).addrs k ≠ 0 → d' = d ∧ ip' = ino i) := by
  rw [mapAddr] at hmap
  split at hmap
  · rename_i hk
    obtain ⟨⟨e, c⟩, hballoc, hret⟩ := bind_eq_ok.mp hmap
    cases hret
    have hgrab := grabbed_addr h hk (balloc_ok h.used_meta hballoc)
    refine ⟨hgrab.grown h hS, update_self _ _ _, hgrab.pos, fun hne => absurd hk hne⟩
  · rename_i hk
    cases hmap
    exact ⟨Grown.refl h S, rfl, hk, fun _ => ⟨rfl, rfl⟩⟩

/-- The slots that `bmap` may fill. -/
def Mapped (bn : ℕ) (s : Slot) : Prop :=
  s = dataSlot bn ∨ ndirect ≤ bn ∧ s = .inl (Fin.last 12)

/-- **`bmap` returns the block of the slot**, which it has filled if it was empty, together with
that of the indirect block. -/
theorem bmap_ok {ip' : Inode} {bn : ℕ} (h : Owned sb d ino)
    (hmap : bmap sb d (ino i) bn = .ok (d', ip', b)) :
    Grown sb d ino i (Mapped bn) d' ip' ∧ slotBlock d' ip' (dataSlot bn) = b ∧ b ≠ 0 ∧
      (slotBlock d (ino i) (dataSlot bn) ≠ 0 → d' = d ∧ ip' = ino i) := by
  rw [bmap] at hmap
  split at hmap
  · rename_i hbn
    have hslot := dataSlot_of_lt hbn
    obtain ⟨hgrown, hb, hpos, hfound⟩ := mapAddr_ok h hmap (S := Mapped bn) (Or.inl hslot.symm)
    rw [hslot]
    exact ⟨hgrown, hb, hpos, hfound⟩
  · rename_i hbn
    have hbn := Nat.le_of_not_lt hbn
    split at hmap
    · rename_i hlt
      obtain ⟨⟨e, ip, addr⟩, hind, hmap⟩ := bind_eq_ok.mp hmap
      obtain ⟨hgrown, haddr, hpos, hfound⟩ :=
        mapAddr_ok h hind (S := Mapped bn) (Or.inr ⟨hbn, rfl⟩)
      have hind' : ip.indirect = addr := haddr
      have hslot : dataSlot bn = .inr ⟨bn - ndirect, hlt⟩ := by
        rw [dataSlot_of_le hbn]
        exact congrArg Sum.inr (Fin.ext (Nat.mod_eq_of_lt hlt))
      simp only at hmap
      split at hmap
      · rename_i hword
        obtain ⟨⟨f, c⟩, hballoc, hret⟩ := bind_eq_ok.mp hmap
        cases hret
        have hgrab := grabbed_word (i := i) (j := ⟨bn - ndirect, hlt⟩)
          hgrown.owned (by rwa [update_self, hind']) (by rwa [update_self, hind'])
          (balloc_ok hgrown.owned.used_meta hballoc)
        rw [update_self, hind'] at hgrab
        refine ⟨hgrown.trans (hgrab.grown hgrown.owned (Or.inl hslot.symm)), ?_, hgrab.pos,
          fun hne => ?_⟩
        · have hnew := hgrab.slot i (.inr ⟨bn - ndirect, hlt⟩)
          rwa [update_self, if_pos ⟨rfl, rfl⟩, ← hslot] at hnew
        · have hempty := hgrab.empty
          rw [← hslot, hgrown.keeps i _ hne] at hempty
          exact absurd hempty hne
      · rename_i hword
        cases hmap
        refine ⟨hgrown, ?_, hword, fun hne => hfound fun hnone => hne ?_⟩
        · rw [hslot, slotBlock, hind', if_neg hpos]
        · have hnone' : (ino i).indirect = 0 := hnone
          rw [hslot, slotBlock, if_pos hnone']
    · cases hmap

theorem mapAddr_panics {p : Panic} {ip : Inode} {k : Fin 13} (h : mapAddr sb d ip k = .error p) :
    p = .outOfBlocks := by
  rw [mapAddr] at h
  split at h
  · cases hballoc : balloc sb d with
    | error q =>
      rw [hballoc, error_bind] at h
      exact (Except.error.inj h).symm.trans (balloc_panics hballoc)
    | ok r =>
      rw [hballoc] at h
      cases h
  · cases h

theorem bmap_panics {p : Panic} {ip : Inode} {bn : ℕ} (hbn : bn < maxfile)
    (h : bmap sb d ip bn = .error p) : p = .outOfBlocks := by
  rw [bmap] at h
  split at h
  · exact mapAddr_panics h
  · have hrange : bn - ndirect < nindirect := by
      rw [maxfile] at hbn
      omega
    rw [if_pos hrange] at h
    cases hmap : mapAddr sb d ip 12 with
    | error q =>
      rw [hmap, error_bind] at h
      exact (Except.error.inj h).symm.trans (mapAddr_panics hmap)
    | ok r =>
      rw [hmap, ok_bind] at h
      simp only at h
      split at h
      · cases hballoc : balloc sb r.1 with
        | error q =>
          rw [hballoc, error_bind] at h
          exact (Except.error.inj h).symm.trans (balloc_panics hballoc)
        | ok r' =>
          rw [hballoc] at h
          cases h
      · cases h

end Files
end Xv6
end SystemsProjects

import SystemsProjects.Xv6.InodeBytes
import SystemsProjects.Xv6.InodeTrunc

/-!
# What the disk stores

The inodes on the disk say how long the files are and which blocks they have.  The disk is sound if
each file has just the blocks that its size calls for.

`readi` and `writei` work on the inode that is on the disk.  `writei` calls `iupdate` only if the
file has become longer, and that is enough, since a write that stays within the file allocates
nothing.  `itrunc` and `ialloc` change the inode and the file with it.
-/

namespace SystemsProjects
namespace Xv6
namespace Files

open Lib Function

variable {sb : Superblock} {d d' : Disk} {ip ip' : Inode} {b c : ℕ}
  {ino : Fin sb.ninodes → Inode} {i j : Fin sb.ninodes} {s : Slot} {ext : Fin sb.ninodes → ℕ}

/-! ## Inodes on the disk -/

theorem fields_within {a : ℕ} {f : RecordField} (hf : f ∈ ip.fields a) :
    a ≤ f.start ∧ f.start + f.width ≤ a + 64 := by
  rw [Inode.fields, List.mem_append] at hf
  rcases hf with hf | hf
  · simp only [List.mem_cons, List.not_mem_nil, or_false] at hf
    rcases hf with rfl | rfl | rfl | rfl | rfl
    all_goals exact ⟨by simp only; omega, by simp only; omega⟩
  · obtain ⟨k, -, rfl⟩ := List.mem_map.mp hf
    have hk := k.isLt
    exact ⟨by simp only; omega, by simp only; omega⟩

theorem fields_pairwise (ip : Inode) (a : ℕ) : (ip.fields a).Pairwise RecordField.Before := by
  rw [Inode.fields, List.pairwise_append]
  refine ⟨?_, ?_, fun f hf g hg => ?_⟩
  · simp only [List.pairwise_cons, List.mem_cons, List.not_mem_nil, or_false, RecordField.Before]
    grind
  · rw [List.pairwise_map]
    refine (List.pairwise_lt_finRange 13).imp fun {k l} hkl => ?_
    have hval : (k : ℕ) < l := hkl
    simp only [RecordField.Before]
    omega
  · obtain ⟨k, -, rfl⟩ := List.mem_map.mp hg
    simp only [List.mem_cons, List.not_mem_nil, or_false] at hf
    rcases hf with rfl | rfl | rfl | rfl | rfl
    all_goals simp only [RecordField.Before]; omega

/-- The inode depends on its own 64 bytes. -/
theorem dinode_congr {inum : ℕ} (h : ∀ x, inodeStart inum ≤ x → x < inodeStart inum + 64 →
    d' (sb.iblock inum) x = d (sb.iblock inum) x) : dinode sb d' inum = dinode sb d inum := by
  simp only [dinode, Inode.mk.injEq]
  refine ⟨?_, ?_, ?_, ?_, ?_, funext fun k => ?_⟩
  all_goals exact value_congr fun x h₀ h₁ => h x (by omega) (by omega)

/-- The numbers of an inode fit their fields. -/
structure Inode.Fits (ip : Inode) : Prop where
  type : ip.type < 2 ^ 16
  major : ip.major < 2 ^ 16
  minor : ip.minor < 2 ^ 16
  nlink : ip.nlink < 2 ^ 16
  size : ip.size < 2 ^ 32
  addrs : ∀ k, ip.addrs k < 2 ^ 32

theorem dinode_fits (d : Disk) (inum : ℕ) : (dinode sb d inum).Fits :=
  ⟨value_lt, value_lt, value_lt, value_lt, value_lt, fun _ => value_lt⟩

/-- **An inode that was written is read.** -/
theorem dinode_iupdate {inum : ℕ} (h : ip.Fits) : dinode sb (iupdate sb d inum ip) inum = ip := by
  have hvalue : ∀ f ∈ ip.fields (inodeStart inum), f.value < 256 ^ f.width →
      value (iupdate sb d inum ip (sb.iblock inum)) f.start f.width = f.value := by
    intro f hf hlt
    rw [iupdate, update_self, value_putFields (fields_pairwise ip _) hf, Nat.mod_eq_of_lt hlt]
  have hmem : ∀ f, f ∈ [⟨inodeStart inum, 2, ip.type⟩, ⟨inodeStart inum + 2, 2, ip.major⟩,
      ⟨inodeStart inum + 4, 2, ip.minor⟩, ⟨inodeStart inum + 6, 2, ip.nlink⟩,
      (⟨inodeStart inum + 8, 4, ip.size⟩ : RecordField)] → f ∈ ip.fields (inodeStart inum) :=
    fun f hf => List.mem_append_left _ hf
  ext k
  · exact hvalue ⟨inodeStart inum, 2, ip.type⟩ (hmem _ (by simp)) h.type
  · exact hvalue ⟨inodeStart inum + 2, 2, ip.major⟩ (hmem _ (by simp)) h.major
  · exact hvalue ⟨inodeStart inum + 4, 2, ip.minor⟩ (hmem _ (by simp)) h.minor
  · exact hvalue ⟨inodeStart inum + 6, 2, ip.nlink⟩ (hmem _ (by simp)) h.nlink
  · exact hvalue ⟨inodeStart inum + 8, 4, ip.size⟩ (hmem _ (by simp)) h.size
  · refine hvalue ⟨inodeStart inum + 12 + 4 * k, 4, ip.addrs k⟩ ?_ (h.addrs k)
    exact List.mem_append_right _ (List.mem_map.mpr ⟨k, List.mem_finRange k, rfl⟩)

/-- The other inodes stay. -/
theorem dinode_update_of_ne {inum inum' : ℕ} {f : Block} (h : inum' ≠ inum)
    (hf : ∀ x, x < inodeStart inum ∨ inodeStart inum + 64 ≤ x → f x = d (sb.iblock inum) x) :
    dinode sb (update d (sb.iblock inum) f) inum' = dinode sb d inum' := by
  refine dinode_congr fun x h₀ h₁ => ?_
  by_cases hblock : sb.iblock inum' = sb.iblock inum
  · rw [hblock, update_self]
    refine hf x ?_
    simp only [Superblock.iblock, inodeStart, ipb, bsize] at hblock h₀ h₁ ⊢
    omega
  · rw [update_of_ne hblock]

theorem dinode_iupdate_of_ne {inum inum' : ℕ} (h : inum' ≠ inum) :
    dinode sb (iupdate sb d inum ip) inum' = dinode sb d inum' := by
  refine dinode_update_of_ne h fun x hx => putFields_of_notMem fun f hf => ?_
  have hwithin := fields_within hf
  omega

/-! ## A block in front of the data changes -/

section Front

variable (h : Owned sb d ino) (hc : c < sb.nmeta) (hbitmap : sb.NotBitmap c) (f : Block)

include h hc

theorem slotBlock_update_front (j : Fin sb.ninodes) (t : Slot) :
    slotBlock (update d c f) (ino j) t = slotBlock d (ino j) t := by
  cases t with
  | inl k => rfl
  | inr k =>
    simp only [slotBlock]
    split
    · rfl
    · rename_i hind
      rw [word, update_of_ne (Nat.lt_of_lt_of_le hc (h.indirect_ge hind)).ne']
      rfl

include hbitmap in
theorem Owned.update_front : Owned sb (update d c f) ino := by
  have hheld : held (update d c f) ino = held d ino := by
    funext t
    rw [held, held, slotBlock_update_front h hc]
  have hused : used sb (update d c f) = used sb d := by
    funext b
    exact propext (used_congr fun hb => update_of_ne (hbitmap b hb).symm _ _)
  rw [Owned, hheld, hused]
  exact h

end Front

theorem Sound.update_front (h : Sound sb d ino ext) (hc : c < sb.nmeta)
    (hbitmap : sb.NotBitmap c) (f : Block) : Sound sb (update d c f) ino ext where
  owned := h.owned.update_front hc hbitmap f
  shape j k hk := by
    rw [slotBlock_update_front h.owned hc]
    exact h.shape j k hk
  indirect := h.indirect
  ext_le := h.ext_le

theorem Sound.fileByte_update_front (h : Sound sb d ino ext) (hc : c < sb.nmeta) (f : Block)
    {x : ℕ} (hx : x < ext j) : fileByte (update d c f) (ino j) x = fileByte d (ino j) x := by
  have hge := (h.owned.slot (h.slot_ne_zero hx)).2
  rw [fileByte, slotBlock_update_front h.owned hc, update_of_ne (Nat.lt_of_lt_of_le hc hge).ne']
  rfl

/-! ## What the disk stores -/

theorem slotBlock_congr (h : ip'.addrs = ip.addrs) : slotBlock d ip' s = slotBlock d ip s := by
  cases s with
  | inl k => exact congrFun h k
  | inr k => rw [slotBlock, slotBlock, Inode.indirect, h, Inode.indirect]

/-- Only the addresses of the inodes matter. -/
theorem Sound.congr_addrs {ino' : Fin sb.ninodes → Inode} (h : Sound sb d ino ext)
    (haddrs : ∀ j, (ino' j).addrs = (ino j).addrs) : Sound sb d ino' ext where
  owned := by
    have hheld : held d ino' = held d ino := by
      funext t
      rw [held, held, slotBlock_congr (haddrs t.1)]
    rw [Owned, hheld]
    exact h.owned
  shape j k hk := by
    rw [slotBlock_congr (haddrs j)]
    exact h.shape j k hk
  indirect j := by
    rw [Inode.indirect, haddrs j]
    exact h.indirect j
  ext_le := h.ext_le

/-- The disk is sound, and each file has the blocks that its size calls for. -/
abbrev Stored (sb : Superblock) (d : Disk) : Prop :=
  Sound sb d (fun j => dinode sb d j) fun j => (dinode sb d j).size

/-- **The bytes of the files.** -/
def contents (sb : Superblock) (d : Disk) (j : Fin sb.ninodes) : List UInt8 :=
  upTo (fileByte d (dinode sb d j)) (dinode sb d j).size

theorem length_contents : (contents sb d j).length = (dinode sb d j).size := length_upTo

/-- The addresses of an inode fit their fields. -/
theorem Owned.addrs_lt (h : Owned sb d ino) (k : Fin 13) : (ino j).addrs k < 2 ^ 32 := by
  by_cases hk : (ino j).addrs k = 0
  · rw [hk]
    exact Nat.two_pow_pos 32
  · have hlt := (h.slot (s := .inl k) hk).1.1
    have hsize := sb.size_lt
    simp only [slotBlock] at hlt
    omega

/-- **`readi`** returns a piece of the file, and changes nothing. -/
theorem readi_eq (h : Stored sb d) {off n : ℕ} (hoff : off < 2 ^ 32) (hn : n < 2 ^ 32) :
    readi sb d (dinode sb d i) off n = .ok (d, dinode sb d i,
      if (contents sb d i).length < off ∨ 2 ^ 32 ≤ off + n then none
      else some (((contents sb d i).drop off).take n)) := by
  rw [readi, length_contents]
  have hiff : ((dinode sb d i).size < off ∨ (off + n) % 2 ^ 32 < off) ↔
      (dinode sb d i).size < off ∨ 2 ^ 32 ≤ off + n := by omega
  by_cases hfail : (dinode sb d i).size < off ∨ 2 ^ 32 ≤ off + n
  · rw [if_pos hfail, if_pos (hiff.mpr hfail)]
    rfl
  · rw [if_neg hfail, if_neg (mt hiff.mp hfail)]
    obtain ⟨m, hm⟩ : ∃ m, m = (if (dinode sb d i).size < (off + n) % 2 ^ 32
      then (dinode sb d i).size - off else n) := ⟨_, rfl⟩
    have hmin : m = min n ((dinode sb d i).size - off) := by
      rw [hm]
      split <;> omega
    have hwithin : off + m ≤ (dinode sb d i).size := by omega
    have hloop := readLoop_eq (i := i) h (le_refl m) hwithin
    simp only [← hm, hloop, ok_bind]
    have htake : ((contents sb d i).drop off).take n = ((contents sb d i).drop off).take m := by
      rw [List.take_eq_take_iff, List.length_drop, length_contents]
      omega
    rw [htake, contents, take_drop_upTo (by omega)]
    rfl

/-- What a write has stored when the inode is on the disk. -/
theorem Written.stored {off : ℕ} {src : List UInt8} {e : Disk}
    (hw : Written sb d (fun j => dinode sb d j) (fun j => (dinode sb d j).size) i off src e ip)
    (hoff : off ≤ (dinode sb d i).size)
    (hd : ∀ j : Fin sb.ninodes, dinode sb d' j =
      update (fun j : Fin sb.ninodes => dinode sb d j) i ip' j)
    (haddrs : ip'.addrs = ip.addrs)
    (hsize : ip'.size = max (dinode sb d i).size (off + src.length))
    (hsound : Sound sb d' (update (fun j : Fin sb.ninodes => dinode sb d j) i ip)
      (update (fun j : Fin sb.ninodes => (dinode sb d j).size) i
        (max (dinode sb d i).size (off + src.length))))
    (hbytes : ∀ j x, x < update (fun j : Fin sb.ninodes => (dinode sb d j).size) i
        (max (dinode sb d i).size (off + src.length)) j →
      fileByte d' (update (fun j : Fin sb.ninodes => dinode sb d j) i ip j) x =
        fileByte e (update (fun j : Fin sb.ninodes => dinode sb d j) i ip j) x) :
    Stored sb d' ∧
      contents sb d' = update (contents sb d) i (overwrite (contents sb d i) off src) := by
  have hinodes : (fun j : Fin sb.ninodes => dinode sb d' j) =
      update (fun j : Fin sb.ninodes => dinode sb d j) i ip' := funext hd
  have hsizes : (fun j : Fin sb.ninodes => (dinode sb d' j).size) =
      update (fun j : Fin sb.ninodes => (dinode sb d j).size) i
        (max (dinode sb d i).size (off + src.length)) := by
    funext j
    rw [hd, ← hsize]
    by_cases hj : j = i
    · rw [hj, update_self, update_self]
    · rw [update_of_ne hj, update_of_ne hj]
  constructor
  · rw [Stored, hsizes, hinodes]
    refine hsound.congr_addrs fun j => ?_
    by_cases hj : j = i
    · rw [hj, update_self, update_self, haddrs]
    · rw [update_of_ne hj, update_of_ne hj]
  · funext j
    by_cases hj : j = i
    · subst hj
      rw [update_self, contents, hd, update_self, hsize, contents, ← upTo_blit hoff]
      refine upTo_congr fun x hx => ?_
      have hsame := hbytes j x
      rw [update_self, update_self] at hsame
      rw [← hw.bytes x hx, ← hsame hx, fileByte, fileByte, slotBlock_congr haddrs]
    · rw [update_of_ne hj, contents, hd, update_of_ne hj, contents]
      refine upTo_congr fun x hx => ?_
      have hsame := hbytes j x
      rw [update_of_ne hj, update_of_ne hj] at hsame
      exact (hsame hx).trans (hw.others j hj x hx)

/-- Inode `i` is what it is. -/
theorem dinode_same (d : Disk) (i j : Fin sb.ninodes) : dinode sb d j =
    update (fun j : Fin sb.ninodes => dinode sb d j) i (dinode sb d i) j := by
  rw [update_eq_self i fun j : Fin sb.ninodes => dinode sb d j]

/-- **`writei`** replaces a piece of the file if it fits, and nothing else. -/
theorem writei_ok (h : Stored sb d) {off : ℕ} {src : List UInt8} {done : Bool}
    (hoff : off < 2 ^ 32) (hlen : src.length < 2 ^ 32)
    (hwrite : writei sb d i (dinode sb d i) off src = .ok (d', ip', done)) :
    Stored sb d' ∧ (∀ j : Fin sb.ninodes, dinode sb d' j =
      update (fun j : Fin sb.ninodes => dinode sb d j) i ip' j) ∧
    contents sb d' = (if done then
      update (contents sb d) i (overwrite (contents sb d i) off src) else contents sb d) ∧
    (done = true ↔ off ≤ (contents sb d i).length ∧ off + src.length ≤ maxfile * bsize) ∧
    ip'.type = (dinode sb d i).type ∧ ip'.nlink = (dinode sb d i).nlink := by
  have hmax : maxfile * bsize = 71680 := rfl
  have hnone := dinode_same d i
  rw [length_contents]
  rw [writei] at hwrite
  split at hwrite
  · cases hwrite
    exact ⟨h, hnone, rfl, iff_of_false Bool.false_ne_true (by omega), rfl, rfl⟩
  · split at hwrite
    · cases hwrite
      exact ⟨h, hnone, rfl, iff_of_false Bool.false_ne_true (by omega), rfl, rfl⟩
    · obtain ⟨⟨e, ip, off'⟩, hloop, hrest⟩ := bind_eq_ok.mp hwrite
      have hle : off ≤ (dinode sb d i).size := by omega
      have hfits : off + src.length ≤ maxfile * bsize := by omega
      obtain ⟨hend, hw⟩ := writeLoop_ok (i := i) h hle (le_refl _) hfits hloop
      have hsize : ip.size = (dinode sb d i).size := by rw [hw.same]
      have htype : ip.type = (dinode sb d i).type := by rw [hw.same]
      have hnlink : ip.nlink = (dinode sb d i).nlink := by rw [hw.same]
      have hdisk : ∀ j : Fin sb.ninodes, dinode sb e j = dinode sb d j := fun j =>
        dinode_congr fun x _ _ => congrFun (hw.disk j j.isLt) x
      have hself := update_self i ip fun j : Fin sb.ninodes => dinode sb d j
      simp only at hrest
      split at hrest
      · rename_i hgrow
        cases hrest
        have hfit : Inode.Fits { ip with size := off' } := by
          have hold : (dinode sb d i).Fits := dinode_fits d i
          rw [hw.same]
          refine ⟨hold.type, hold.major, hold.minor, hold.nlink, by simp only; omega, fun k => ?_⟩
          have haddr := hw.sound.owned.addrs_lt (j := i) k
          rwa [hself] at haddr
        have hfront := Superblock.iblock_lt_nmeta i.isLt
        have hbitmap := Superblock.notBitmap_iblock i.isLt
        have hd : ∀ j : Fin sb.ninodes, dinode sb (iupdate sb e i { ip with size := off' }) j =
            update (fun j : Fin sb.ninodes => dinode sb d j) i { ip with size := off' } j := by
          intro j
          by_cases hj : j = i
          · rw [hj, update_self, dinode_iupdate hfit]
          · rw [update_of_ne hj, dinode_iupdate_of_ne fun heq => hj (Fin.ext heq), hdisk]
        obtain ⟨hstored, hcontents⟩ := hw.stored hle hd rfl (by simp only; omega)
          (hw.sound.update_front hfront hbitmap _)
          fun j x hx => hw.sound.fileByte_update_front hfront _ hx
        exact ⟨hstored, hd, hcontents, iff_of_true rfl ⟨hle, hfits⟩, htype, hnlink⟩
      · rename_i hstays
        cases hrest
        have hwithin : off + src.length ≤ (dinode sb d i).size := by omega
        have hd : ∀ j : Fin sb.ninodes, dinode sb d' j =
            update (fun j : Fin sb.ninodes => dinode sb d j) i ip' j := by
          intro j
          rw [hw.quiet hwithin, ← hnone j, hdisk]
        obtain ⟨hstored, hcontents⟩ := hw.stored hle hd rfl
          (by rw [hsize, max_eq_left hwithin]) hw.sound fun j x hx => rfl
        exact ⟨hstored, hd, hcontents, iff_of_true rfl ⟨hle, hfits⟩, htype, hnlink⟩

theorem writei_panics {p : Panic} {inum off : ℕ} {src : List UInt8} (hoff : off < 2 ^ 32)
    (hlen : src.length < 2 ^ 32) (h : writei sb d inum ip off src = .error p) :
    p = .outOfBlocks := by
  rw [writei] at h
  split at h
  · cases h
  · split at h
    · cases h
    · have hfits : off + src.length ≤ maxfile * bsize := by omega
      cases hloop : writeLoop sb src.length d ip off src with
      | error q =>
        rw [hloop, error_bind] at h
        exact (Except.error.inj h).symm.trans (writeLoop_panics hfits hloop)
      | ok r =>
        rw [hloop, ok_bind] at h
        simp only at h
        split at h <;> cases h

/-! ## Inodes come and go -/

/-- The slots of file `i` are empty after its blocks were freed. -/
theorem Freed.slotBlock (h : Owned sb d ino)
    (hf : Freed sb d d' fun c => ∃ s, slotBlock d (ino i) s = c) (haddrs : ip'.addrs = fun _ => 0)
    (j : Fin sb.ninodes) (t : Slot) :
    slotBlock d' (update ino i ip' j) t = if j = i then 0 else slotBlock d (ino j) t := by
  by_cases hj : j = i
  · subst hj
    rw [update_self, if_pos rfl]
    cases t with
    | inl k => exact congrFun haddrs k
    | inr k => exact if_pos (congrFun haddrs 12)
  · rw [update_of_ne hj, if_neg hj]
    cases t with
    | inl k => rfl
    | inr k =>
      simp only [Files.slotBlock]
      split
      · rfl
      · rename_i hind
        rw [word, word, hf.same _ (Superblock.notBitmap_of_le (h.indirect_ge hind))]

/-- **The disk without the blocks of a file.** -/
theorem Freed.sound (hf : Freed sb d d' fun c => ∃ s, Files.slotBlock d (ino i) s = c)
    (h : Sound sb d ino ext) (haddrs : ip'.addrs = fun _ => 0) :
    Sound sb d' (update ino i ip') (update ext i 0) where
  owned := by
    have hheld : held d' (update ino i ip') = fun t => if t.1 = i then none else held d ino t := by
      funext t
      rw [held, held, hf.slotBlock h.owned haddrs]
      by_cases ht : t.1 = i
      · rw [if_pos ht, if_pos ht, if_pos rfl]
      · rw [if_neg ht, if_neg ht]
    rw [Owned, hheld]
    refine h.owned.release_slots (fun t => t.1 = i) fun c => ?_
    rw [hf.used]
    refine and_congr_right fun _ => not_congr ⟨?_, ?_⟩
    · rintro ⟨hc, s, hs⟩
      exact ⟨(i, s), rfl, held_eq_some.mpr ⟨hs, hc⟩⟩
    · rintro ⟨⟨j, s⟩, rfl, hs⟩
      exact ⟨(held_eq_some.mp hs).2, s, (held_eq_some.mp hs).1⟩
  shape j k hk := by
    rw [hf.slotBlock h.owned haddrs]
    by_cases hj : j = i
    · rw [if_pos hj, hj, update_self]
      exact iff_of_false (fun hne => hne rfl) (by omega)
    · rw [if_neg hj, update_of_ne hj]
      exact h.shape j k hk
  indirect j := by
    have hslot := hf.slotBlock h.owned haddrs j (.inl 12)
    have hindirect : (update ino i ip' j).indirect = if j = i then 0 else (ino j).indirect := hslot
    rw [hindirect]
    by_cases hj : j = i
    · rw [if_pos hj, hj, update_self]
      exact iff_of_false (fun hne => hne rfl) (by omega)
    · rw [if_neg hj, update_of_ne hj]
      exact h.indirect j
  ext_le j := by
    by_cases hj : j = i
    · rw [hj, update_self]
      exact Nat.zero_le _
    · rw [update_of_ne hj]
      exact h.ext_le j

/-- The other files keep their bytes. -/
theorem Freed.fileByte (hf : Freed sb d d' fun c => ∃ s, Files.slotBlock d (ino i) s = c)
    (h : Sound sb d ino ext) (haddrs : ip'.addrs = fun _ => 0) (hj : j ≠ i) {x : ℕ}
    (hx : x < ext j) : fileByte d' (update ino i ip' j) x = fileByte d (ino j) x := by
  have hge := (h.owned.slot (h.slot_ne_zero hx)).2
  rw [Files.fileByte, Files.fileByte, hf.slotBlock h.owned haddrs, if_neg hj,
    hf.same _ (Superblock.notBitmap_of_le hge)]

/-- **A block with inodes is written**: the disk stores what inode `i` says then. -/
theorem Sound.restored (h : Sound sb d ino ext) (i : Fin sb.ninodes) {f : Block}
    (hd : ∀ j : Fin sb.ninodes, dinode sb (update d (sb.iblock i) f) j = update ino i ip' j)
    (hother : ∀ j : Fin sb.ninodes, j ≠ i → (ino j).size = ext j)
    (haddrs : ip'.addrs = (ino i).addrs) (hsize : ip'.size = ext i) :
    Stored sb (update d (sb.iblock i) f) ∧
      ∀ j, contents sb (update d (sb.iblock i) f) j = upTo (fileByte d (ino j)) (ext j) := by
  have hfront := Superblock.iblock_lt_nmeta i.isLt
  have hbitmap := Superblock.notBitmap_iblock i.isLt
  have hsame : ∀ j, (update ino i ip' j).addrs = (ino j).addrs ∧
      (update ino i ip' j).size = ext j := by
    intro j
    by_cases hj : j = i
    · rw [hj, update_self]
      exact ⟨haddrs, hsize⟩
    · rw [update_of_ne hj]
      exact ⟨rfl, hother j hj⟩
  have hsound := h.update_front hfront hbitmap f
  refine ⟨?_, fun j => ?_⟩
  · have hsizes : (fun j : Fin sb.ninodes => (dinode sb (update d (sb.iblock i) f) j).size) =
        ext := funext fun j => by rw [hd, (hsame j).2]
    rw [Stored, hsizes]
    exact hsound.congr_addrs fun j => by rw [hd, (hsame j).1]
  · rw [contents, hd, (hsame j).2]
    refine upTo_congr fun x hx => ?_
    rw [← h.fileByte_update_front hfront f hx, Files.fileByte, Files.fileByte,
      slotBlock_congr (hsame j).1]

/-- The inodes after `iupdate`. -/
theorem dinode_iupdate_eq (i : Fin sb.ninodes) (hfit : ip'.Fits)
    (hother : ∀ j : Fin sb.ninodes, j ≠ i → dinode sb d j = ino j) (j : Fin sb.ninodes) :
    dinode sb (iupdate sb d i ip') j = update ino i ip' j := by
  by_cases hj : j = i
  · rw [hj, update_self, dinode_iupdate hfit]
  · rw [update_of_ne hj, dinode_iupdate_of_ne fun heq => hj (Fin.ext heq), hother j hj]

/-- **`iput` of a file without links**: the disk stores no byte of it. -/
theorem itrunc_stored (h : Stored sb d) (i : Fin sb.ninodes) :
    ∃ d', itrunc sb d i (dinode sb d i) = .ok (d', (dinode sb d i).emptied) ∧
      Stored sb (iupdate sb d' i { (dinode sb d i).emptied with type := 0 }) ∧
      (∀ j : Fin sb.ninodes,
        dinode sb (iupdate sb d' i { (dinode sb d i).emptied with type := 0 }) j =
          update (fun j : Fin sb.ninodes => dinode sb d j) i
            { (dinode sb d i).emptied with type := 0 } j) ∧
      contents sb (iupdate sb d' i { (dinode sb d i).emptied with type := 0 }) =
        update (contents sb d) i [] := by
  obtain ⟨e, hitrunc, hfreed⟩ := itrunc_ok h.owned i
  have hold : (dinode sb d i).Fits := dinode_fits d i
  have hfit : Inode.Fits { (dinode sb d i).emptied with type := 0 } :=
    ⟨Nat.two_pow_pos 16, hold.major, hold.minor, hold.nlink, Nat.two_pow_pos 32,
      fun _ => Nat.two_pow_pos 32⟩
  have hfront := Superblock.iblock_lt_nmeta i.isLt
  have hbitmap := Superblock.notBitmap_iblock i.isLt
  have hsound : Sound sb e (update (fun j : Fin sb.ninodes => dinode sb d j) i
      (dinode sb d i).emptied) (update (fun j : Fin sb.ninodes => (dinode sb d j).size) i 0) :=
    hfreed.sound h rfl
  have hnext : Sound sb (iupdate sb e i (dinode sb d i).emptied) _ _ :=
    hsound.update_front hfront hbitmap _
  have hother : ∀ j : Fin sb.ninodes, j ≠ i →
      dinode sb (iupdate sb e i (dinode sb d i).emptied) j = dinode sb d j := by
    intro j hj
    rw [dinode_iupdate_of_ne fun heq => hj (Fin.ext heq)]
    refine dinode_congr fun x _ _ => ?_
    rw [hfreed.same _ (Superblock.notBitmap_iblock j.isLt)]
  have hd := dinode_iupdate_eq i hfit hother
  have hd' : ∀ j, update (update (fun j : Fin sb.ninodes => dinode sb d j) i
      (dinode sb d i).emptied) i { (dinode sb d i).emptied with type := 0 } j =
      update (fun j : Fin sb.ninodes => dinode sb d j) i
        { (dinode sb d i).emptied with type := 0 } j := fun j => by rw [update_idem]
  obtain ⟨hstored, hcontents⟩ := hnext.restored i (fun j => (hd j).trans (hd' j).symm)
    (fun j hj => by rw [update_of_ne hj, update_of_ne hj]) (by rw [update_self])
    (by rw [update_self]; rfl)
  refine ⟨_, hitrunc, hstored, hd, funext fun j => (hcontents j).trans ?_⟩
  by_cases hj : j = i
  · rw [hj, update_self, update_self, update_self]
    rfl
  · rw [update_of_ne hj, update_of_ne hj, update_of_ne hj, contents]
    refine upTo_congr fun x hx => ?_
    have hx' : x < update (fun j : Fin sb.ninodes => (dinode sb d j).size) i 0 j := by
      rwa [update_of_ne hj]
    have hfront' := hsound.fileByte_update_front hfront
      (putFields (e (sb.iblock i)) ((dinode sb d i).emptied.fields (inodeStart i))) hx'
    have hempty : (dinode sb d i).emptied.addrs = fun _ => 0 := rfl
    have hfile := hfreed.fileByte h hempty hj hx
    rw [update_of_ne hj] at hfront' hfile
    exact hfront'.trans hfile

/-- An empty file has no addresses. -/
theorem Sound.addrs_eq_zero (h : Sound sb d ino ext) (hext : ext i = 0) :
    (ino i).addrs = fun _ => 0 := by
  funext k
  cases k using Fin.lastCases with
  | last =>
    refine of_not_not fun hk => ?_
    have hlt := (h.indirect i).mp hk
    omega
  | cast k =>
    refine of_not_not fun hk => ?_
    have hlt : (k : ℕ) < ndirect := k.isLt
    have hslot := h.shape i k (by simp only [maxfile]; omega)
    rw [dataSlot_of_lt hlt] at hslot
    have hsize := hslot.mp hk
    omega

/-- The inode that `ialloc` writes. -/
def Inode.blank (type : ℕ) : Inode :=
  { type := type, major := 0, minor := 0, nlink := 0, size := 0, addrs := fun _ => 0 }

theorem value_zero {bytes : ℕ → UInt8} : ∀ {n a : ℕ}, (∀ x, a ≤ x → x < a + n → bytes x = 0) →
    value bytes a n = 0 := by
  intro n a h
  rw [value_of_digits (v := 0) fun i hi => ?_]
  · exact Nat.zero_mod _
  · rw [h (a + i) (by omega) (by omega), Nat.zero_div]
    rfl

/-- **`ialloc`** takes an inode without a type, and changes no file if such files are empty. -/
theorem ialloc_ok (h : Stored sb d)
    (hfree : ∀ j : Fin sb.ninodes, (dinode sb d j).type = 0 → (dinode sb d j).size = 0)
    {type inum : ℕ} (htype : type < 2 ^ 16) (halloc : ialloc sb d type = .ok (d', inum)) :
    ∃ i : Fin sb.ninodes, i = inum ∧ (dinode sb d i).type = 0 ∧ Stored sb d' ∧
      (∀ j : Fin sb.ninodes, dinode sb d' j =
        update (fun j : Fin sb.ninodes => dinode sb d j) i (Inode.blank type) j) ∧
      contents sb d' = contents sb d := by
  rw [ialloc] at halloc
  split at halloc
  · rename_i k hfind
    obtain ⟨rfl, rfl⟩ := Prod.mk.inj (Except.ok.inj halloc)
    have hlt := List.mem_range.mp (List.mem_of_find?_eq_some hfind)
    have hnone := List.find?_some hfind
    simp only [Bool.and_eq_true, beq_iff_eq] at hnone
    have hd : ∀ j : Fin sb.ninodes, dinode sb (update d (sb.iblock k)
        (put (blit (d (sb.iblock k)) (inodeStart k) (List.replicate 64 0)) (inodeStart k) 2 type))
        j = update (fun j : Fin sb.ninodes => dinode sb d j) ⟨k, hlt⟩ (Inode.blank type) j := by
      intro j
      by_cases hj : j = ⟨k, hlt⟩
      · subst hj
        rw [update_self, dinode, update_self, Inode.blank, Inode.mk.injEq]
        have hzero : ∀ a n, 2 ≤ a → a + n ≤ 64 → value (put (blit (d (sb.iblock k))
            (inodeStart k) (List.replicate 64 0)) (inodeStart k) 2 type) (inodeStart k + a) n =
            0 := by
          intro a n ha hn
          rw [value_put_of_disjoint (by omega)]
          refine value_zero fun x h₀ h₁ => ?_
          rw [blit_of_mem (by omega) (by rw [List.length_replicate]; omega),
            List.getElem_replicate]
        refine ⟨?_, hzero 2 2 (by omega) (by omega), hzero 4 2 (by omega) (by omega),
          hzero 6 2 (by omega) (by omega), hzero 8 4 (by omega) (by omega), funext fun m => ?_⟩
        · rw [value_put_self]
          exact Nat.mod_eq_of_lt htype
        · have hm := m.isLt
          rw [Nat.add_assoc]
          exact hzero (12 + 4 * m) 4 (by omega) (by omega)
      · rw [update_of_ne hj]
        refine dinode_update_of_ne (fun heq => hj (Fin.ext heq)) fun x hx => ?_
        rw [put_of_notMem (by omega),
          blit_of_notMem (by rw [List.length_replicate]; omega)]
    have hsize := hfree ⟨k, hlt⟩ hnone.2
    obtain ⟨hstored, hcontents⟩ := h.restored ⟨k, hlt⟩ hd (fun _ _ => rfl)
      (h.addrs_eq_zero hsize).symm hsize.symm
    exact ⟨⟨k, hlt⟩, rfl, hnone.2, hstored, hd, funext hcontents⟩
  · cases halloc

end Files
end Xv6
end SystemsProjects

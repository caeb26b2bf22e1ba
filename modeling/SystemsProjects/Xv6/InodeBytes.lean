import SystemsProjects.Xv6.InodeBlocks

/-!
# The bytes of a file

The bytes of a file are those of its blocks, one block behind the other, up to its length.  A read
finds all the blocks it wants, and changes nothing.  A write begins within the file or at its end;
each round of its loop copies a piece into one block, which `bmap` allocates if the file has grown
to a multiple of the block size.  So the bytes of the file are those from before with the new ones
copied into them, and the bytes of all other files are as they were.
-/

namespace SystemsProjects
namespace Xv6
namespace Files

open Lib Function

variable {sb : Superblock} {d d' : Disk} {ip ip' : Inode} {b : ℕ}
  {ino : Fin sb.ninodes → Inode} {i : Fin sb.ninodes} {s : Slot} {ext : Fin sb.ninodes → ℕ}

/-- **What holds of the disk**, when the blocks of file `i` reach as far as `ext i` bytes: each
block in use has one place, and the slots that hold a block are those for these bytes. -/
structure Sound (sb : Superblock) (d : Disk) (ino : Fin sb.ninodes → Inode)
    (ext : Fin sb.ninodes → ℕ) : Prop where
  owned : Owned sb d ino
  shape : ∀ i k, k < maxfile → (slotBlock d (ino i) (dataSlot k) ≠ 0 ↔ k * bsize < ext i)
  indirect : ∀ i, (ino i).indirect ≠ 0 ↔ ndirect * bsize < ext i
  ext_le : ∀ i, ext i ≤ maxfile * bsize

/-- A byte of a file. -/
def fileByte (d : Disk) (ip : Inode) (x : ℕ) : UInt8 :=
  d (slotBlock d ip (dataSlot (x / bsize))) (x % bsize)

theorem div_bsize_mul_le (x : ℕ) : x / bsize * bsize ≤ x := Nat.div_mul_le_self x bsize

theorem div_bsize_lt {x : ℕ} (h : x < maxfile * bsize) : x / bsize < maxfile :=
  Nat.div_lt_of_lt_mul (by rwa [Nat.mul_comm])

/-- The block of a byte of a file. -/
theorem Sound.slot_ne_zero (h : Sound sb d ino ext) {x : ℕ} (hx : x < ext i) :
    slotBlock d (ino i) (dataSlot (x / bsize)) ≠ 0 :=
  (h.shape i _ (div_bsize_lt (Nat.lt_of_lt_of_le hx (h.ext_le i)))).mpr
    (Nat.lt_of_le_of_lt (div_bsize_mul_le x) hx)

/-! ## Reading -/

/-- `bmap` of a block that is there. -/
theorem bmap_found {bn : ℕ} (hbn : bn < maxfile) (h : slotBlock d ip (dataSlot bn) ≠ 0) :
    bmap sb d ip bn = .ok (d, ip, slotBlock d ip (dataSlot bn)) := by
  rw [bmap]
  rcases Nat.lt_or_ge bn ndirect with hlt | hge
  · rw [dataSlot_of_lt hlt] at h ⊢
    rw [dif_pos hlt]
    exact if_neg h
  · have hrange : bn - ndirect < nindirect := by
      rw [maxfile] at hbn
      omega
    have hmod : (bn - ndirect) % 128 = bn - ndirect := Nat.mod_eq_of_lt hrange
    rw [dataSlot_of_le hge] at h ⊢
    simp only [slotBlock, hmod] at h ⊢
    have hind : ip.addrs 12 ≠ 0 := fun hnone => h (if_pos hnone)
    have hind' : ip.indirect ≠ 0 := hind
    rw [if_neg hind'] at h ⊢
    rw [dif_neg (Nat.not_lt_of_le hge), if_pos hrange, mapAddr, if_neg hind, pure_eq_ok, ok_bind]
    exact if_neg h

/-- **The loop of `readi`** copies the bytes of the file, and changes nothing. -/
theorem readLoop_eq (h : Sound sb d ino ext) :
    ∀ {fuel off n : ℕ}, n ≤ fuel → off + n ≤ ext i →
      readLoop sb fuel d (ino i) off n =
        .ok (d, ino i, upTo (fun x => fileByte d (ino i) (off + x)) n)
  | 0, off, n, hfuel, _ => by
    obtain rfl := Nat.le_zero.mp hfuel
    rfl
  | fuel + 1, off, n, hfuel, hle => by
    rw [readLoop]
    by_cases hn : n = 0
    · subst hn
      rw [if_pos rfl]
      rfl
    · have hpos : off < ext i := by omega
      have hbn := div_bsize_lt (Nat.lt_of_lt_of_le hpos (h.ext_le i))
      obtain ⟨m, hm⟩ : ∃ m, m = min n (bsize - off % bsize) := ⟨_, rfl⟩
      have hmod : off % bsize < bsize := Nat.mod_lt off (by decide)
      rw [if_neg hn, bmap_found hbn (h.slot_ne_zero hpos), ok_bind, ← hm]
      simp only
      rw [readLoop_eq h (by omega) (by omega), ok_bind]
      have hsplit : n = m + (n - m) := by omega
      conv_rhs => rw [hsplit, upTo_add]
      have hfirst : upTo (fun x => d (slotBlock d (ino i) (dataSlot (off / bsize)))
          (off % bsize + x)) m = upTo (fun x => fileByte d (ino i) (off + x)) m := by
        refine upTo_congr fun x hx => ?_
        have hdiv : (off + x) / bsize = off / bsize ∧ (off + x) % bsize = off % bsize + x := by
          simp only [bsize] at hm hmod ⊢
          omega
        rw [fileByte, hdiv.1, hdiv.2]
      rw [hfirst]
      simp only [Nat.add_assoc]
      rfl

/-! ## A file grows by a block -/

/-- Bytes of a file are not touched while slots take blocks. -/
theorem Grown.fileByte {S : Slot → Prop} (h : Grown sb d ino i S d' ip') {j : Fin sb.ninodes}
    {x : ℕ} (hx : slotBlock d (ino j) (dataSlot (x / bsize)) ≠ 0) :
    fileByte d' (update ino i ip' j) x = fileByte d (ino j) x := by
  rw [Files.fileByte, Files.fileByte, h.keeps j _ hx, h.data j _ (dataSlot_ne_indirect _) hx]

/-- **`bmap` keeps the disk sound**: the file has its next block afterwards. -/
theorem Sound.bmap (h : Sound sb d ino ext) {bn e : ℕ} (hbn : bn < maxfile)
    (hnext : bn * bsize ≤ ext i) (hlo : bn * bsize < e) (hhi : e ≤ (bn + 1) * bsize)
    (hmap : Files.bmap sb d (ino i) bn = .ok (d', ip', b)) :
    Sound sb d' (update ino i ip') (update ext i (max (ext i) e)) := by
  obtain ⟨hgrown, hslot, hpos, -⟩ := bmap_ok h.owned hmap
  have hself : ∀ s, slotBlock d' ip' s ≠ 0 → slotBlock d (ino i) s ≠ 0 ∨ Mapped bn s := by
    intro s hs
    have honly := hgrown.only i s
    rw [update_self] at honly
    exact (honly hs).imp_right And.right
  have hkeeps : ∀ s, slotBlock d (ino i) s ≠ 0 → slotBlock d' ip' s ≠ 0 := by
    intro s hs
    have hsame := hgrown.keeps i s hs
    rw [update_self] at hsame
    rwa [hsame]
  have hother : ∀ j s, j ≠ i → (slotBlock d' (update ino i ip' j) s ≠ 0 ↔
      slotBlock d (ino j) s ≠ 0) := by
    intro j s hj
    refine ⟨fun hs => (hgrown.only j s hs).resolve_right fun hji => hj hji.1, fun hs => ?_⟩
    rwa [hgrown.keeps j s hs]
  have hbsize : bsize = 512 := rfl
  refine ⟨hgrown.owned, fun j k hk => ?_, fun j => ?_, fun j => ?_⟩
  · by_cases hj : j = i
    · subst hj
      rw [update_self, update_self]
      constructor
      · intro hs
        rcases hself _ hs with hs | hs | ⟨-, hs⟩
        · have hlt := (h.shape j k hk).mp hs
          omega
        · rw [dataSlot_injective hk hbn hs]
          omega
        · exact absurd hs (dataSlot_ne_indirect k)
      · intro hlt
        by_cases hkbn : k = bn
        · rw [hkbn, hslot]
          exact hpos
        · refine hkeeps _ ((h.shape j k hk).mpr ?_)
          rcases Nat.lt_or_gt_of_ne hkbn with hk' | hk'
          · have hmul : k * bsize < bn * bsize := Nat.mul_lt_mul_of_pos_right hk' (by decide)
            omega
          · have hmul := Nat.mul_le_mul_right bsize (Nat.succ_le_of_lt hk')
            rw [Nat.succ_eq_add_one] at hmul
            omega
    · rw [hother j _ hj, update_of_ne hj]
      exact h.shape j k hk
  · by_cases hj : j = i
    · subst hj
      rw [update_self, update_self]
      constructor
      · intro hs
        rcases hself (.inl 12) hs with hs | hs | ⟨hge, -⟩
        · have hlt := (h.indirect j).mp hs
          omega
        · exact absurd hs.symm (dataSlot_ne_indirect bn)
        · have hmul := Nat.mul_le_mul_right bsize hge
          omega
      · intro hlt
        by_cases hold : (ino j).indirect = 0
        · have hnot := mt (h.indirect j).mpr (not_not.mpr hold)
          have hge : ndirect ≤ bn := by
            simp only [ndirect, bsize] at hnot hlt hhi ⊢
            omega
          rw [dataSlot_of_le hge] at hslot
          intro hnone
          rw [slotBlock, if_pos hnone] at hslot
          exact hpos hslot.symm
        · exact hkeeps (.inl 12) hold
    · have hext : update ext i (max (ext i) e) j = ext j := update_of_ne hj _ _
      rw [hext]
      exact (hother j (.inl 12) hj).trans (h.indirect j)
  · by_cases hj : j = i
    · subst hj
      rw [update_self]
      have hmul := Nat.mul_le_mul_right bsize (Nat.succ_le_of_lt hbn)
      rw [Nat.succ_eq_add_one] at hmul
      exact max_le (h.ext_le j) (hhi.trans hmul)
    · rw [update_of_ne hj]
      exact h.ext_le j

/-! ## Writing -/

/-- The bytes of a block of a file change: no slot does. -/
theorem slotBlock_update (h : Owned sb d ino) (hb : slotBlock d (ino i) s ≠ 0)
    (hs : s ≠ .inl 12) (f : Block) (j : Fin sb.ninodes) (t : Slot) :
    slotBlock (update d (slotBlock d (ino i) s) f) (ino j) t = slotBlock d (ino j) t := by
  obtain ⟨c, hc⟩ : ∃ c, c = slotBlock d (ino i) s := ⟨_, rfl⟩
  rw [← hc]
  cases t with
  | inl k => rfl
  | inr k =>
    simp only [slotBlock]
    split
    · rfl
    · rename_i hind
      have hne : (ino j).indirect ≠ c := fun heq =>
        hs (h.slot_inj (t := .inl 12) hb (hc.symm.trans heq.symm)).2
      rw [word, update_of_ne hne]
      rfl

theorem Owned.update_data (h : Owned sb d ino) (hb : slotBlock d (ino i) s ≠ 0)
    (hs : s ≠ .inl 12) (f : Block) : Owned sb (update d (slotBlock d (ino i) s) f) ino := by
  have hheld : held (update d (slotBlock d (ino i) s) f) ino = held d ino := by
    funext t
    rw [held, held, slotBlock_update h hb hs]
  have hused : used sb (update d (slotBlock d (ino i) s) f) = used sb d := by
    funext c
    refine propext (used_congr fun hc => update_of_ne ?_ _ _)
    exact (Nat.lt_of_lt_of_le (Superblock.bblock_lt hc) (h.slot hb).2).ne
  rw [Owned, hheld, hused]
  exact h

/-- The bytes in other blocks stay. -/
theorem fileByte_update_of_ne (h : Owned sb d ino) (hb : slotBlock d (ino i) s ≠ 0)
    (hs : s ≠ .inl 12) (f : Block) {j : Fin sb.ninodes} {x : ℕ}
    (hne : slotBlock d (ino j) (dataSlot (x / bsize)) ≠ slotBlock d (ino i) s) :
    fileByte (update d (slotBlock d (ino i) s) f) (ino j) x = fileByte d (ino j) x := by
  rw [fileByte, slotBlock_update h hb hs, update_of_ne hne]
  rfl

theorem Sound.update_data (h : Sound sb d ino ext) (hb : slotBlock d (ino i) s ≠ 0)
    (hs : s ≠ .inl 12) (f : Block) : Sound sb (update d (slotBlock d (ino i) s) f) ino ext where
  owned := h.owned.update_data hb hs f
  shape j k hk := by
    rw [slotBlock_update h.owned hb hs]
    exact h.shape j k hk
  indirect := h.indirect
  ext_le := h.ext_le

/-- **What a write of `src` at `off` does** to the file `i`, and to the others. -/
structure Written (sb : Superblock) (d : Disk) (ino : Fin sb.ninodes → Inode)
    (ext : Fin sb.ninodes → ℕ) (i : Fin sb.ninodes) (off : ℕ) (src : List UInt8) (d' : Disk)
    (ip' : Inode) : Prop where
  sound : Sound sb d' (update ino i ip') (update ext i (max (ext i) (off + src.length)))
  disk : ∀ inum < sb.ninodes, d' (sb.iblock inum) = d (sb.iblock inum)
  same : ip' = { ino i with addrs := ip'.addrs }
  quiet : off + src.length ≤ ext i → ip' = ino i
  bytes : ∀ x < max (ext i) (off + src.length),
    fileByte d' ip' x = blit (fileByte d (ino i)) off src x
  others : ∀ j, j ≠ i → ∀ x < ext j, fileByte d' (ino j) x = fileByte d (ino j) x

theorem Written.nil (h : Sound sb d ino ext) {off : ℕ} (hoff : off ≤ ext i) :
    Written sb d ino ext i off [] d (ino i) := by
  refine ⟨?_, fun _ _ => rfl, rfl, fun _ => rfl, fun x _ => ?_, fun _ _ _ _ => rfl⟩
  · rw [List.length_nil, Nat.add_zero, max_eq_left hoff, update_eq_self, update_eq_self]
    exact h
  · rw [blit_nil]

/-- One write behind the other. -/
theorem Written.append {off : ℕ} {l m : List UInt8} {d'' : Disk} {ip'' : Inode}
    (h : Written sb d ino ext i off l d' ip')
    (h' : Written sb d' (update ino i ip') (update ext i (max (ext i) (off + l.length))) i
      (off + l.length) m d'' ip'') : Written sb d ino ext i off (l ++ m) d'' ip'' := by
  obtain ⟨hsound, hdisk, hsame, hquiet, hbytes, hothers⟩ := h
  obtain ⟨hsound', hdisk', hsame', hquiet', hbytes', hothers'⟩ := h'
  simp only [update_self, update_idem] at hsound' hsame' hquiet' hbytes' hothers'
  have hmax : max (max (ext i) (off + l.length)) (off + l.length + m.length) =
      max (ext i) (off + (l ++ m).length) := by
    rw [List.length_append]
    omega
  rw [hmax] at hsound' hbytes'
  refine ⟨hsound', fun inum hinum => (hdisk' inum hinum).trans (hdisk inum hinum), ?_,
    fun hle => ?_, fun x hx => ?_, fun j hj x hx => ?_⟩
  · rw [hsame', hsame]
  · rw [List.length_append] at hle
    rw [hquiet' (by omega), hquiet (by omega)]
  · rw [hbytes' x hx, ← blit_append]
    by_cases hold : x < max (ext i) (off + l.length)
    · exact blit_congr (hbytes x hold)
    · have hlen : x < off + l.length + m.length := by
        rw [List.length_append] at hx
        omega
      rw [blit_of_mem (by omega) (by omega), blit_of_mem (by omega) (by omega)]
  · have hsecond := hothers' j hj x
    simp only [update_of_ne hj] at hsecond
    exact (hsecond hx).trans (hothers j hj x hx)

/-- A round of the loop of `writei`. -/
theorem written_round (h : Sound sb d ino ext) {off : ℕ} {l : List UInt8} (hoff : off ≤ ext i)
    (hpos : 0 < l.length) (hfits : l.length ≤ bsize - off % bsize)
    (hle : off + l.length ≤ maxfile * bsize)
    (hmap : Files.bmap sb d (ino i) (off / bsize) = .ok (d', ip', b)) :
    Written sb d ino ext i off l (update d' b (blit (d' b) (off % bsize) l)) ip' := by
  have hbn : off / bsize < maxfile := div_bsize_lt (by omega)
  have hdiv : off / bsize * bsize + off % bsize = off := Nat.div_add_mod' off bsize
  have hmod : off % bsize < bsize := Nat.mod_lt off (by decide)
  have hsound := h.bmap hbn (e := off + l.length) (by omega) (by omega)
    (by rw [Nat.add_mul]; omega) hmap
  obtain ⟨hgrown, hslot, hb, hfound⟩ := bmap_ok h.owned hmap
  have hslot' : slotBlock d' (update ino i ip' i) (dataSlot (off / bsize)) = b := by
    rw [update_self, hslot]
  have hne := dataSlot_ne_indirect (off / bsize)
  have hb' : slotBlock d' (update ino i ip' i) (dataSlot (off / bsize)) ≠ 0 := hslot' ▸ hb
  have hkeep := slotBlock_update hsound.owned hb' hne (blit (d' b) (off % bsize) l) i
    (dataSlot (off / bsize))
  have hothers := @fileByte_update_of_ne sb d' (update ino i ip') i _ hsound.owned hb' hne
    (blit (d' b) (off % bsize) l)
  have hnext := hsound.update_data hb' hne (blit (d' b) (off % bsize) l)
  have hinj := fun j t => hsound.owned.slot_inj (j := j) (t := t) hb'
  have hdata := fun j x (hx : x < ext j) => hgrown.fileByte (h.slot_ne_zero hx)
  have hbsize : bsize = 512 := rfl
  rw [hslot'] at hkeep hothers hnext hinj
  refine ⟨hnext, fun inum hinum => ?_, hgrown.same, fun hquiet => ?_, fun x hx => ?_,
    fun j hj x hx => ?_⟩
  · have hlt := Nat.lt_of_lt_of_le (Superblock.iblock_lt_nmeta hinum) (hsound.owned.slot hb').2
    rw [hslot'] at hlt
    rw [update_of_ne hlt.ne, hgrown.disk inum hinum]
  · exact (hfound (h.slot_ne_zero (by omega))).2
  · rw [update_self] at hkeep
    by_cases hin : off ≤ x ∧ x < off + l.length
    · have hplace : x / bsize = off / bsize ∧ x % bsize - off % bsize = x - off ∧
          off % bsize ≤ x % bsize := by
        simp only [hbsize] at hfits hdiv hmod ⊢
        omega
      rw [blit_of_mem hin.1 (by omega), fileByte, hplace.1, hkeep, update_self,
        blit_of_mem hplace.2.2 (by omega)]
      simp only [hplace.2.1]
    · have hold : x < ext i := by omega
      have hsame := hdata i x hold
      rw [update_self] at hsame
      rw [blit_of_notMem (by omega), ← hsame]
      by_cases hblock : x / bsize = off / bsize
      · have hout : x % bsize < off % bsize ∨ off % bsize + l.length ≤ x % bsize := by
          simp only [hbsize] at hfits hdiv hmod hblock ⊢
          omega
        rw [fileByte, fileByte, hblock, hkeep, hslot, update_self, blit_of_notMem hout]
      · have hfar := hothers (j := i) (x := x) fun heq => hblock ?_
        · rwa [update_self] at hfar
        · refine (dataSlot_injective hbn (div_bsize_lt ?_) (hinj i _ heq.symm).2).symm
          exact Nat.lt_of_lt_of_le hold (h.ext_le i)
  · have hsame := hdata j x hx
    have hfar := hothers (j := j) (x := x) fun heq => hj (hinj j _ heq.symm).1.symm
    rw [update_of_ne hj] at hsame hfar
    exact hfar.trans hsame

/-- **The loop of `writei`** writes the bytes. -/
theorem writeLoop_ok : ∀ {fuel : ℕ} {d : Disk} {ino : Fin sb.ninodes → Inode}
    {ext : Fin sb.ninodes → ℕ} {off off' : ℕ} {src : List UInt8}, Sound sb d ino ext →
    off ≤ ext i → src.length ≤ fuel → off + src.length ≤ maxfile * bsize →
    writeLoop sb fuel d (ino i) off src = .ok (d', ip', off') →
      off' = off + src.length ∧ Written sb d ino ext i off src d' ip'
  | 0, d, ino, ext, off, off', src, h, hoff, hfuel, _, hloop => by
    cases hloop
    obtain rfl := List.length_eq_zero_iff.mp (Nat.le_zero.mp hfuel)
    exact ⟨rfl, Written.nil h hoff⟩
  | fuel + 1, d, ino, ext, off, off', src, h, hoff, hfuel, hle, hloop => by
    rw [writeLoop] at hloop
    split at hloop
    · rename_i hnil
      cases hloop
      rw [hnil]
      exact ⟨rfl, Written.nil h hoff⟩
    · rename_i hne
      have hpos := List.length_pos_iff.mpr hne
      have hmod : off % bsize < bsize := Nat.mod_lt off (by decide)
      obtain ⟨m, hm⟩ : ∃ m, m = min src.length (bsize - off % bsize) := ⟨_, rfl⟩
      rw [← hm] at hloop
      obtain ⟨⟨e, ip, b⟩, hmap, hrest⟩ := bind_eq_ok.mp hloop
      have hlength : (src.take m).length = m := by
        rw [List.length_take]
        omega
      have hround := written_round h hoff (l := src.take m) (by omega) (by omega) (by omega) hmap
      have hself : update ino i ip i = ip := update_self i ip ino
      simp only at hrest
      rw [← hself] at hrest
      have hext : update ext i (max (ext i) (off + (src.take m).length)) i =
          max (ext i) (off + m) := by
        rw [update_self, hlength]
      obtain ⟨hend, hwritten⟩ := writeLoop_ok hround.sound (by omega)
        (by rw [List.length_drop]; omega) (by rw [List.length_drop]; omega) hrest
      have hnext : off + m = off + (src.take m).length := by rw [hlength]
      rw [hnext] at hwritten
      have hboth := hround.append hwritten
      rw [List.take_append_drop] at hboth
      refine ⟨?_, hboth⟩
      rw [hend, List.length_drop]
      omega

theorem writeLoop_panics {p : Panic} : ∀ {fuel : ℕ} {d : Disk} {ip : Inode} {off : ℕ}
    {src : List UInt8}, off + src.length ≤ maxfile * bsize →
    writeLoop sb fuel d ip off src = .error p → p = .outOfBlocks
  | 0, d, ip, off, src, _, h => by cases h
  | fuel + 1, d, ip, off, src, hle, h => by
    rw [writeLoop] at h
    split at h
    · cases h
    · rename_i hne
      have hpos := List.length_pos_iff.mpr hne
      cases hmap : bmap sb d ip (off / bsize) with
      | error q =>
        rw [hmap, error_bind] at h
        exact (Except.error.inj h).symm.trans (bmap_panics (div_bsize_lt (by omega)) hmap)
      | ok r =>
        rw [hmap, ok_bind] at h
        refine writeLoop_panics ?_ h
        rw [List.length_drop]
        omega

end Files
end Xv6
end SystemsProjects

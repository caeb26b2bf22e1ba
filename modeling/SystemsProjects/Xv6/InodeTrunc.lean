import SystemsProjects.Xv6.InodeBlocks

/-!
# The blocks of a file are given back

The loops of `itrunc` free what the slots of a file name, one slot after the other.  No block is
named twice, so that each is still marked when its turn comes, and `bfree` does not panic.
-/

namespace SystemsProjects
namespace Xv6
namespace Files

open Lib Function

variable {sb : Superblock} {d d' d'' : Disk} {b : ℕ} {S T : ℕ → Prop}

/-- The blocks in `S` have been freed: block 0 stands for none. -/
structure Freed (sb : Superblock) (d d' : Disk) (S : ℕ → Prop) : Prop where
  used : ∀ c, used sb d' c ↔ used sb d c ∧ ¬ (c ≠ 0 ∧ S c)
  same : ∀ c, sb.NotBitmap c → d' c = d c

theorem Freed.refl (d : Disk) : Freed sb d d fun c => c = 0 where
  used _ := (and_iff_left fun h => h.1 h.2).symm
  same _ _ := rfl

theorem Freed.trans (h : Freed sb d d' S) (h' : Freed sb d' d'' T) :
    Freed sb d d'' fun c => S c ∨ T c where
  used c := by
    rw [h'.used, h.used]
    tauto
  same c hc := (h'.same c hc).trans (h.same c hc)

theorem Freed.congr (h : Freed sb d d' S) (hST : ∀ c ≠ 0, S c ↔ T c) : Freed sb d d' T where
  used c := by
    rw [h.used]
    have hc := hST c
    tauto
  same := h.same

/-- A block that a slot names, or none. -/
def freeBlock (sb : Superblock) (d : Disk) (b : ℕ) : Except Panic Disk :=
  if b = 0 then return d else bfree sb d b

theorem freeBlock_ok (h : b ≠ 0 → used sb d b) :
    ∃ d', freeBlock sb d b = .ok d' ∧ Freed sb d d' fun c => c = b := by
  by_cases hb : b = 0
  · subst hb
    exact ⟨d, if_pos rfl, Freed.refl d⟩
  · obtain ⟨d', hfree, hused, hsame⟩ := bfree_ok (h hb)
    refine ⟨d', (if_neg hb).trans hfree, fun c => ?_, hsame⟩
    rw [hused]
    exact and_congr_right fun _ => ⟨fun hc h => hc h.2, fun hc h => hc ⟨h ▸ hb, h⟩⟩

theorem freeAddr_eq {ip : Inode} {k : Fin 13} : freeAddr sb d ip k =
    (freeBlock sb d (ip.addrs k) >>= fun d => .ok (d, ip.setAddr k 0)) := by
  rw [freeAddr, freeBlock]
  split
  · rename_i hk
    rw [pure_eq_ok, pure_eq_ok, ok_bind, Inode.setAddr, ← hk, update_eq_self]
  · rfl

/-- **A loop that frees blocks**, each of which is named once. -/
theorem free_loop {σ κ : Type} {step : σ → κ → Except Panic σ} {disk : σ → Disk} {block : κ → ℕ}
    {I : List κ → σ → Prop}
    (hstep : ∀ k ks s, I (k :: ks) s → (block k ≠ 0 → used sb (disk s) (block k)) →
      ∃ s', step s k = .ok s' ∧ I ks s' ∧ Freed sb (disk s) (disk s') fun c => c = block k) :
    ∀ {ks : List κ} {s : σ}, I ks s → ks.Pairwise (fun k l => block k ≠ 0 → block k ≠ block l) →
      (∀ k ∈ ks, block k ≠ 0 → used sb (disk s) (block k)) →
      ∃ s', ks.foldlM step s = .ok s' ∧ I [] s' ∧
        Freed sb (disk s) (disk s') fun c => ∃ k ∈ ks, block k = c
  | [], s, hI, _, _ => by
    refine ⟨s, rfl, hI, (Freed.refl (disk s)).congr fun c hc => iff_of_false hc ?_⟩
    rintro ⟨k, hk, -⟩
    exact List.not_mem_nil hk
  | k :: ks, s, hI, hpair, hused => by
    obtain ⟨hne, hpair⟩ := List.pairwise_cons.mp hpair
    obtain ⟨s', hk, hI', hfreed⟩ := hstep k ks s hI (hused k List.mem_cons_self)
    have hused' : ∀ l ∈ ks, block l ≠ 0 → used sb (disk s') (block l) := by
      intro l hl hzero
      refine (hfreed.used _).mpr ⟨hused l (List.mem_cons_of_mem k hl) hzero, fun h => ?_⟩
      exact hne l hl (h.2 ▸ hzero) h.2.symm
    obtain ⟨s'', hks, hI'', hfreed'⟩ := free_loop hstep hI' hpair hused'
    refine ⟨s'', ?_, hI'', (hfreed.trans hfreed').congr fun c _ => ?_⟩
    · rw [List.foldlM_cons, hk, ok_bind, hks]
    · rw [List.exists_mem_cons_iff, eq_comm]

/-- The inode of a file without blocks. -/
def Inode.emptied (ip : Inode) : Inode := { ip with size := 0, addrs := fun _ => 0 }

section Itrunc

variable {ino : Fin sb.ninodes → Inode} {i : Fin sb.ninodes}

/-- What holds in the first loop of `itrunc` when the addresses `ks` are still to be freed. -/
structure Freeing (ip : Inode) (ks : List (Fin 12)) (r : Disk × Inode) : Prop where
  nodup : ks.Nodup
  same : r.2 = { ip with addrs := r.2.addrs }
  last : r.2.addrs (Fin.last 12) = ip.indirect
  addrs : ∀ k : Fin 12, r.2.addrs k.castSucc = if k ∈ ks then ip.addrs k.castSucc else 0

theorem Freeing.round {ip : Inode} {k : Fin 12} {ks : List (Fin 12)} {r : Disk × Inode}
    (h : Freeing ip (k :: ks) r) (hused : ip.addrs k.castSucc ≠ 0 →
      Files.used sb r.1 (ip.addrs k.castSucc)) :
    ∃ r', freeAddr sb r.1 r.2 k.castSucc = .ok r' ∧ Freeing ip ks r' ∧
      Freed sb r.1 r'.1 fun c => c = ip.addrs k.castSucc := by
  obtain ⟨hk, hnodup⟩ := List.nodup_cons.mp h.nodup
  have haddr := h.addrs k
  rw [if_pos List.mem_cons_self] at haddr
  obtain ⟨d', hfree, hfreed⟩ := freeBlock_ok hused
  refine ⟨(d', r.2.setAddr k.castSucc 0), ?_, ⟨hnodup, ?_, ?_, fun l => ?_⟩, hfreed⟩
  · rw [freeAddr_eq, haddr, hfree, ok_bind]
  · rw [h.same]
    rfl
  · exact (update_of_ne (Fin.castSucc_lt_last k).ne' _ _).trans h.last
  · by_cases hl : l = k
    · rw [hl, if_neg hk]
      exact update_self _ _ _
    · have hold := h.addrs l
      simp only [List.mem_cons, or_iff_right hl] at hold
      rw [← hold]
      exact update_of_ne (fun heq => hl (Fin.castSucc_injective 12 heq)) _ _

/-- The inode when only the indirect block is left. -/
def Inode.indirectOnly (ip : Inode) : Inode :=
  { ip with addrs := update (fun _ => 0) (Fin.last 12) ip.indirect }

theorem Freeing.done {ip : Inode} {r : Disk × Inode} (h : Freeing ip [] r) :
    r.2 = ip.indirectOnly := by
  rw [h.same, Inode.indirectOnly, Inode.mk.injEq]
  refine ⟨rfl, rfl, rfl, rfl, rfl, funext fun k => ?_⟩
  cases k using Fin.lastCases with
  | last => rw [update_self, h.last]
  | cast k =>
    rw [update_of_ne (Fin.castSucc_lt_last k).ne, h.addrs, if_neg List.not_mem_nil]

/-- The first loop of `itrunc`. -/
theorem freeAddrs_ok (h : Owned sb d ino) (i : Fin sb.ninodes) :
    ∃ d', (List.finRange 12).foldlM (fun (r : Disk × Inode) k => freeAddr sb r.1 r.2 k.castSucc)
        (d, ino i) = .ok (d', (ino i).indirectOnly) ∧
      Freed sb d d' fun c => ∃ k : Fin 12, (ino i).addrs k.castSucc = c := by
  have hstart : Freeing (ino i) (List.finRange 12) (d, ino i) :=
    ⟨List.nodup_finRange 12, rfl, rfl, fun k => (if_pos (List.mem_finRange k)).symm⟩
  have hpair : (List.finRange 12).Pairwise fun k l =>
      (ino i).addrs k.castSucc ≠ 0 → (ino i).addrs k.castSucc ≠ (ino i).addrs l.castSucc := by
    refine (List.nodup_finRange 12).imp fun {k l} hkl hb heq => hkl ?_
    have hslot := (h.slot_inj (s := .inl k.castSucc) (t := .inl l.castSucc) hb heq).2
    exact Fin.castSucc_injective 12 (Sum.inl.inj hslot)
  have hused : ∀ k ∈ List.finRange 12, (ino i).addrs k.castSucc ≠ 0 →
      Files.used sb d ((ino i).addrs k.castSucc) :=
    fun k _ hb => (h.slot (s := .inl k.castSucc) hb).1
  obtain ⟨⟨d', ip'⟩, hloop, hdone, hfreed⟩ :=
    free_loop (fun _ _ _ hI hused => Freeing.round hI hused) hstart hpair hused
  have hip : ip' = (ino i).indirectOnly := hdone.done
  refine ⟨d', hip ▸ hloop, hfreed.congr fun c _ => ?_⟩
  simp only [List.mem_finRange, true_and]

/-- The second loop, with the blocks that the indirect block named at the beginning. -/
theorem freeWords_ok {a : ℕ} (ha : sb.NotBitmap a)
    (hinj : ∀ j < 128, ∀ l < 128, word d a j ≠ 0 → word d a j = word d a l → j = l)
    (hused : ∀ j < 128, word d a j ≠ 0 → used sb d (word d a j)) :
    ∃ d', (List.range nindirect).foldlM (freeWord sb a) d = .ok d' ∧
      Freed sb d d' fun c => ∃ j : Fin 128, word d a j = c := by
  have hround : ∀ (j : ℕ) (js : List ℕ) (e : Disk), e a = d a →
      (word d a j ≠ 0 → used sb e (word d a j)) → ∃ e', freeWord sb a e j = .ok e' ∧
        e' a = d a ∧ Freed sb e e' fun c => c = word d a j := by
    intro j js e hsame hused
    have hword : word e a j = word d a j := by rw [word, word, hsame]
    obtain ⟨e', hfree, hfreed⟩ := freeBlock_ok hused
    refine ⟨e', ?_, (hfreed.same a ha).trans hsame, hfreed⟩
    rw [← hfree, ← hword]
    rfl
  have hpair : (List.range 128).Pairwise fun j l => word d a j ≠ 0 → word d a j ≠ word d a l :=
    List.Pairwise.imp_of_mem (fun {j l} hj hl hlt hb heq =>
      hlt.ne (hinj j (List.mem_range.mp hj) l (List.mem_range.mp hl) hb heq))
      List.pairwise_lt_range
  obtain ⟨d', hloop, -, hfreed⟩ := free_loop (I := fun _ e => e a = d a) (s := d) hround rfl hpair
    fun j hj => hused j (List.mem_range.mp hj)
  refine ⟨d', hloop, hfreed.congr fun c _ => ⟨?_, ?_⟩⟩
  · rintro ⟨j, hj, hc⟩
    exact ⟨⟨j, List.mem_range.mp hj⟩, hc⟩
  · rintro ⟨j, hc⟩
    exact ⟨j, List.mem_range.mpr j.isLt, hc⟩

/-- **`itrunc` does not panic**, and frees what the slots of the file name. -/
theorem itrunc_ok (h : Owned sb d ino) (i : Fin sb.ninodes) :
    ∃ d', itrunc sb d i (ino i) =
        .ok (iupdate sb d' i (ino i).emptied, (ino i).emptied) ∧
      Freed sb d d' fun c => ∃ s, slotBlock d (ino i) s = c := by
  obtain ⟨e, hloop, hfreed⟩ := freeAddrs_ok h i
  have hindirect : (ino i).indirectOnly.indirect = (ino i).indirect := by
    have hlast : (12 : Fin 13) = Fin.last 12 := rfl
    simp only [Inode.indirect, hlast, Inode.indirectOnly, update_self]
  have hresult : { (ino i).indirectOnly.setAddr 12 0 with size := 0 } = (ino i).emptied := by
    have hzero : update (update (fun _ => 0) (Fin.last 12) (ino i).indirect) 12 0 =
        fun _ : Fin 13 => 0 := (update_idem _ _ _).trans (update_eq_self 12 fun _ : Fin 13 => 0)
    simp only [Inode.setAddr, Inode.indirectOnly, Inode.emptied, hzero]
  rw [itrunc, hloop, ok_bind]
  simp only
  rw [freeIndirect, hindirect]
  by_cases hnone : (ino i).indirect = 0
  · have hsame : (ino i).indirectOnly.setAddr 12 0 = (ino i).indirectOnly := by
      rw [Inode.setAddr, ← hnone, ← hindirect, Inode.indirect, update_eq_self]
    rw [hsame] at hresult
    rw [if_pos hnone, pure_eq_ok, ok_bind]
    refine ⟨e, by rw [← hresult]; rfl, hfreed.congr fun c hc => ⟨?_, ?_⟩⟩
    · rintro ⟨k, hk⟩
      exact ⟨.inl k.castSucc, hk⟩
    · rintro ⟨k | k, hk⟩
      · cases k using Fin.lastCases with
        | last => exact absurd (hk.symm.trans hnone) hc
        | cast k => exact ⟨k, hk⟩
      · rw [slotBlock, if_pos hnone] at hk
        exact absurd hk.symm hc
  · obtain ⟨a, ha⟩ : ∃ a, a = (ino i).indirect := ⟨_, rfl⟩
    have hbitmap := Superblock.notBitmap_of_le (h.indirect_ge hnone)
    have hword : ∀ j : Fin 128, word e (ino i).indirect j = slotBlock d (ino i) (.inr j) := by
      intro j
      rw [slotBlock, if_neg hnone, word, word, hfreed.same _ hbitmap]
    have hword' : ∀ j (hj : j < 128), word e (ino i).indirect j =
        slotBlock d (ino i) (.inr ⟨j, hj⟩) := fun j hj => hword ⟨j, hj⟩
    obtain ⟨f, hwords, hfreed'⟩ := freeWords_ok (d := e) hbitmap
      (fun j hj l hl hb heq => by
        rw [hword' j hj] at hb heq
        rw [hword' l hl] at heq
        exact congrArg Fin.val (Sum.inr.inj (h.slot_inj hb heq).2))
      fun j hj hb => by
        rw [hword' j hj] at hb ⊢
        refine (hfreed.used _).mpr ⟨(h.slot hb).1, ?_⟩
        rintro ⟨-, k, hk⟩
        cases (h.slot_inj (t := .inl k.castSucc) hb hk.symm).2
    have hlast : used sb f (ino i).indirect := by
      refine (hfreed'.used _).mpr ⟨(hfreed.used _).mpr ⟨(h.slot (s := .inl 12) hnone).1, ?_⟩, ?_⟩
      · rintro ⟨-, k, hk⟩
        have hslot := (h.slot_inj (s := .inl 12) (t := .inl k.castSucc) hnone hk.symm).2
        exact (Fin.castSucc_lt_last k).ne' (Sum.inl.inj hslot)
      · rintro ⟨-, j, hj⟩
        rw [hword] at hj
        cases (h.slot_inj (s := .inl 12) (t := .inr j) hnone hj.symm).2
    obtain ⟨g, hfree, hfreed''⟩ := freeBlock_ok fun _ => hlast
    rw [freeBlock, if_neg hnone] at hfree
    rw [if_neg hnone, hwords, ok_bind, hfree, ok_bind, pure_eq_ok, ok_bind]
    refine ⟨g, by rw [← hresult]; rfl,
      ((hfreed.trans hfreed').trans hfreed'').congr fun c _ => ⟨?_, ?_⟩⟩
    · rintro ((⟨k, hk⟩ | ⟨j, hj⟩) | hc)
      · exact ⟨.inl k.castSucc, hk⟩
      · exact ⟨.inr j, (hword j).symm.trans hj⟩
      · exact ⟨.inl 12, hc.symm⟩
    · rintro ⟨k | j, hk⟩
      · cases k using Fin.lastCases with
        | last => exact Or.inr hk.symm
        | cast k => exact Or.inl (Or.inl ⟨k, hk⟩)
      · exact Or.inl (Or.inr ⟨j, (hword j).trans hk⟩)

end Itrunc

end Files
end Xv6
end SystemsProjects

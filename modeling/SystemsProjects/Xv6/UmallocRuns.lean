import SystemsProjects.Xv6.Umalloc

/-!
# Programs that use `malloc` and `free`

A program asks for memory, frees what it got, and writes in its blocks; the kernel gives memory
or refuses it.  `malloc_spec` is about one call: it goes round the list at most twice, since the
memory that `morecore` puts in the list is enough.

Over a whole run, `run_ready` says that the list and the blocks stay as `Ready` has it, that
every block has the room that was asked for, and that every call returns.  A request may have at
most 2^31 − 16 bytes.  For one byte more `morecore` calls `sbrk` with a number that the kernel
takes for a negative one, and the process does not grow.  If its memory ends at the border of a
page, the header of the new block is a page fault; otherwise `malloc` returns a block of 2^28
units that ends behind the process.  `inside_iff` says that the bound is exact for every process
with room for 4097 units: they are enough for a break within a page.
-/

namespace SystemsProjects
namespace Xv6
namespace Umalloc

open Lib Function

variable {base start b c n p prevp q u : ℕ} {grant : Bool} {h h' : Heap}
  {free used : Finset ℕ}

/-! ## Taking a block from the list -/

/-- What `malloc` has done when it returns the block `q` of `n` units. -/
structure Taken (base start : ℕ) (h h' : Heap) (q n : ℕ) (free used : Finset ℕ) : Prop where
  ready : Ready base start h' free (insert q used)
  notMem : q ∉ used
  size : h'.size q = n
  untouched : Untouched used h h'
  brk : h'.brk = h.brk

/-- **A block that fits is taken whole.** -/
theorem take_whole (r : Ready base start h free used) (hprevp : prevp ∈ insert base free)
    (hp : h.ptr prevp ∈ free) :
    Taken base start h { h with ptr := update h.ptr prevp (h.ptr (h.ptr prevp)), freep := prevp }
      (h.ptr prevp) (h.size (h.ptr prevp)) (free.erase (h.ptr prevp)) used := by
  have s := r.sound
  obtain ⟨p, hptr⟩ : ∃ p, h.ptr prevp = p := ⟨_, rfl⟩
  rw [hptr] at hp ⊢
  have hpu : p ∉ used := Finset.disjoint_left.mp s.disjoint hp
  have hpn : p ∈ free ∪ used := Finset.mem_union_left _ hp
  have hbase : base ≠ p := by
    rintro rfl
    exact s.base_notMem hpn
  have hne : h.ptr prevp ≠ prevp := s.ring.next_ne hprevp
    (q := if prevp = base then p else base) (by
      split
      · exact Finset.mem_insert_of_mem hp
      · exact Finset.mem_insert_self _ _) (by
      split
      · rename_i heq
        rw [heq]
        exact hbase.symm
      · rename_i hne
        exact Ne.symm hne)
  rw [hptr] at hne
  have hnode : prevp ∈ insert base (free ∪ used) := by
    rw [← Finset.insert_union]
    exact Finset.mem_union_left _ hprevp
  refine ⟨⟨⟨s.base_pos, s.base_lt, s.start_le, s.brk_le, s.base_size, ?_, ?_, ?_⟩, ?_, ?_⟩, hpu,
    rfl, ?_, rfl⟩
  · rw [← Finset.erase_insert_of_ne hbase, ← hptr]
    rw [← hptr] at hne
    exact s.ring.remove hprevp hne (update_self _ _ _) fun a _ hap _ => update_of_ne hap _ _
  · rw [Finset.union_insert, ← Finset.insert_union, Finset.insert_erase hp]
    exact s.tiles
  · rw [Finset.disjoint_insert_right]
    exact ⟨Finset.notMem_erase p free,
      Finset.disjoint_of_subset_left (Finset.erase_subset p free) s.disjoint⟩
  · intro a ha
    obtain ⟨hap, ha⟩ := Finset.mem_erase.mp ha
    by_cases hprev : a = prevp
    · -- the block in front ends before the one that is taken out
      subst hprev
      simp only [update_self]
      have hpos := s.tiles.pos p hpn
      have hlow := s.base_lt_of_mem (Finset.mem_union_left used ha)
      rcases s.end_le_ptr ha with heq | ⟨-, -, hend⟩
      · exact absurd (heq.symm.trans hptr) hbase
      · rw [hptr] at hend
        rcases s.end_le_ptr hp with heq | ⟨-, -, hend'⟩
        · omega
        · omega
    · simp only [update_of_ne hprev]
      exact r.coalesced a ha
  · rcases Finset.mem_insert.mp hprevp with rfl | hprev
    · exact Finset.mem_insert_self _ _
    · exact Finset.mem_insert_of_mem (Finset.mem_erase.mpr ⟨hne.symm, hprev⟩)
  · have hwritten : ∀ u, u ∉ insert base (free ∪ used) →
        update h.ptr prevp (h.ptr p) u = h.ptr u ∧ h.size u = h.size u := by
      refine fun u hu => ⟨update_of_ne ?_ _ _, rfl⟩
      rintro rfl
      exact hu hnode
    exact s.untouched_of_eq rfl hwritten (Finset.Subset.refl _) fun _ _ => rfl

/-- **The end of a larger block is taken.** -/
theorem take_end (r : Ready base start h free used) (hprevp : prevp ∈ insert base free)
    (hp : p ∈ free) (hn : 0 < n) (hlt : n < h.size p) :
    Taken base start h { h with
      size := update (update h.size p (h.size p - n)) (p + (h.size p - n)) n
      freep := prevp } (p + (h.size p - n)) n free used := by
  have s := r.sound
  have hpn : p ∈ free ∪ used := Finset.mem_union_left _ hp
  have hnew : p + (h.size p - n) ∉ free ∪ used := s.tiles.notMem_of_inside hpn (by omega) (by omega)
  have hold : ∀ a ∈ free ∪ used, a ≠ p + (h.size p - n) := by
    rintro a ha rfl
    exact hnew ha
  have hlow := s.base_lt_of_mem hpn
  have hsize : ∀ a ∈ free ∪ used, a ≠ p →
      update (update h.size p (h.size p - n)) (p + (h.size p - n)) n a = h.size a := by
    intro a ha hap
    rw [update_of_ne (hold a ha), update_of_ne hap]
  have hfirst : update (update h.size p (h.size p - n)) (p + (h.size p - n)) n p =
      h.size p - n := by
    rw [update_of_ne (hold p hpn), update_self]
  refine ⟨⟨⟨s.base_pos, s.base_lt, s.start_le, s.brk_le, ?_, s.ring, ?_, ?_⟩, ?_, hprevp⟩,
    fun hu => hnew (Finset.mem_union_right _ hu), update_self _ _ _, fun a ha => ⟨?_, ?_⟩, rfl⟩
  · refine (update_of_ne (by omega) _ _).trans ((update_of_ne (ne_of_lt hlow) _ _).trans ?_)
    exact s.base_size
  · rw [Finset.union_insert]
    exact s.tiles.split hpn hn hlt hfirst (update_self _ _ _) hsize
  · rw [Finset.disjoint_insert_right]
    exact ⟨fun hf => hnew (Finset.mem_union_left _ hf), s.disjoint⟩
  · intro a ha
    by_cases hap : a = p
    · subst hap
      simp only [hfirst]
      rcases s.end_le_ptr ha with heq | ⟨-, -, hend⟩
      · omega
      · omega
    · simp only [hsize a (Finset.mem_union_left _ ha) hap]
      exact r.coalesced a ha
  · refine hsize a (Finset.mem_union_right _ ha) ?_
    rintro rfl
    exact Finset.disjoint_left.mp s.disjoint hp ha
  · intro u hau hua
    have han : a ∈ free ∪ used := Finset.mem_union_right _ ha
    have hap : a ≠ p := by
      rintro rfl
      exact Finset.disjoint_left.mp s.disjoint hp ha
    have hup := s.ne_of_inside han hau hua (Finset.mem_insert_of_mem hpn)
    refine ⟨rfl, (update_of_ne ?_ _ _).trans (update_of_ne hup _ _)⟩
    rcases Nat.lt_or_gt_of_ne hap with hlt' | hgt
    · have hbefore := s.tiles.apart a han p hpn hlt'
      omega
    · have hbefore := s.tiles.apart p hpn a han hgt
      omega

/-! ## One call of `malloc` -/

/-- **A walk of `malloc` through the list**, up to `freep`: it finds a block, or comes to `freep`
without one. -/
theorem scan (grant : Bool) (r : Ready base start h free used) (hn : 0 < n) (hlt : n < 2 ^ 28) :
    ∀ {l : List ℕ} {prevp fuel : ℕ}, Visits h.freep h.ptr (h.ptr prevp) l →
      prevp ∈ insert base free → l.length < fuel →
      (∃ q h' free', loop Stuck.timeout (mallocBody grant n) fuel (h, prevp, h.ptr prevp) =
          .ok (h', q + 1) ∧ Taken base start h h' q n free' used) ∨
        ((∀ a ∈ l, h.size a < n) ∧ h.size h.freep < n ∧ ∃ k prevp', fuel ≤ k + l.length + 1 ∧
          loop Stuck.timeout (mallocBody grant n) fuel (h, prevp, h.ptr prevp) =
            loop Stuck.timeout (mallocBody grant n) (k + 1) (h, prevp', h.freep)) := by
  have s := r.sound
  -- a block that fits is taken in the round that comes to it
  have haccess : ∀ {prevp : ℕ}, prevp ∈ insert base free → h.access (h.ptr prevp) = .ok () :=
    fun hprevp => s.access_node (s.ring.next_mem hprevp)
  have hfits : ∀ {prevp fuel : ℕ}, prevp ∈ insert base free → n ≤ h.size (h.ptr prevp) →
      ∃ q h' free', loop Stuck.timeout (mallocBody grant n) (fuel + 1) (h, prevp, h.ptr prevp) =
        .ok (h', q + 1) ∧ Taken base start h h' q n free' used := by
    intro prevp fuel hprevp hfit
    have hp : h.ptr prevp ∈ free := by
      refine (Finset.mem_insert.mp (s.ring.next_mem hprevp)).resolve_left fun heq => ?_
      rw [heq, s.base_size] at hfit
      omega
    by_cases heq : h.size (h.ptr prevp) = n
    · refine ⟨h.ptr prevp, _, _, loop_of_leave ?_, heq ▸ take_whole r hprevp hp⟩
      rw [mallocBody, haccess hprevp, ok_bind, if_pos hfit, if_pos heq]
      rfl
    · have hlt' : n < h.size (h.ptr prevp) := lt_of_le_of_ne hfit (Ne.symm heq)
      have hend := s.tiles.high _ (Finset.mem_union_left used hp)
      have hbrk := s.brk_le
      unfold kernBase at hbrk
      have hplus : plus (h.ptr prevp) (h.size (h.ptr prevp) - n) =
          h.ptr prevp + (h.size (h.ptr prevp) - n) := Nat.mod_eq_of_lt (by omega)
      refine ⟨_, _, _, loop_of_leave ?_, take_end r hprevp hp hn hlt'⟩
      have hinside : h.access (h.ptr prevp + (h.size (h.ptr prevp) - n)) = .ok () :=
        Heap.access_of_lt (by omega)
      simp only [mallocBody, haccess hprevp, ok_bind, if_pos hfit, if_neg heq, hplus, hinside]
      rfl
  intro l
  induction l with
  | nil =>
    intro prevp fuel hvisits hprevp hfuel
    obtain ⟨fuel, rfl⟩ := Nat.exists_eq_succ_of_ne_zero (Nat.ne_of_gt hfuel)
    by_cases hfit : n ≤ h.size (h.ptr prevp)
    · exact Or.inl (hfits hprevp hfit)
    · have hp : h.ptr prevp = h.freep := hvisits
      rw [hp] at hfit ⊢
      exact Or.inr ⟨fun a ha => absurd ha List.not_mem_nil, not_le.mp hfit, fuel, prevp,
        le_refl _, rfl⟩
  | cons a l ih =>
    intro prevp fuel hvisits hprevp hfuel
    obtain ⟨fuel, rfl⟩ := Nat.exists_eq_succ_of_ne_zero (Nat.ne_of_gt (Nat.zero_lt_of_lt hfuel))
    by_cases hfit : n ≤ h.size (h.ptr prevp)
    · exact Or.inl (hfits hprevp hfit)
    · obtain ⟨ha, hane, hrest⟩ := hvisits
      have hround : mallocBody grant n (h, prevp, h.ptr prevp) =
          .ok (.inl (h, h.ptr prevp, h.ptr (h.ptr prevp))) := by
        rw [mallocBody, haccess hprevp, ok_bind, if_neg hfit, if_neg (ha ▸ hane)]
        rfl
      rw [loop_of_continue hround]
      rw [← ha] at hrest
      rcases ih hrest (s.ring.next_mem hprevp) (Nat.lt_of_succ_lt_succ hfuel) with hfound | hnone
      · exact Or.inl hfound
      · obtain ⟨hsmall, hfreep, k, prevp', hk, heq⟩ := hnone
        refine Or.inr ⟨fun b hb => ?_, hfreep, k, prevp', ?_, heq⟩
        · rcases List.mem_cons.mp hb with rfl | hb
          · rw [← ha]
            exact not_le.mp hfit
          · exact hsmall b hb
        · rw [List.length_cons]
          omega

/-- **`morecore`**: without memory nothing changes; otherwise there is a free block that is
large enough. -/
theorem morecore_spec (grant : Bool) (r : Ready base start h free used) (hlt : n < 2 ^ 28) :
    (morecore grant h n = .ok (h, 0) ∧
      (grant = false ∨ kernBase ≤ 8 * (h.brk + max n 4096))) ∨
    ∃ h' free', morecore grant h n = .ok (h', h'.freep) ∧ Ready base start h' free' used ∧
      (∃ a ∈ free', n ≤ h'.size a) ∧ Untouched used h h' ∧
      h'.brk = h.brk + max n 4096 := by
  have s := r.sound
  have hbrk := s.brk_le
  unfold kernBase at hbrk
  obtain ⟨nu, hnu⟩ : ∃ nu, max n 4096 = nu := ⟨_, rfl⟩
  have hmax : (if n < 4096 then 4096 else n) = nu := by
    rw [← hnu]
    split <;> omega
  have hnlt : n ≤ nu ∧ 4096 ≤ nu ∧ nu < 2 ^ 28 := by omega
  have hmod : nu * 8 % 2 ^ 32 = nu * 8 := Nat.mod_eq_of_lt (by omega)
  rw [morecore, hmax, hnu, hmod, sbrk, if_neg (by omega), if_pos (by omega)]
  by_cases hgrant : 8 * h.brk + nu * 8 < kernBase ∧ grant = true
  · rw [if_pos hgrant]
    have hdiv : (8 * h.brk + nu * 8) / 8 = h.brk + nu := by omega
    have hfresh : h.brk ∉ free ∪ used := fun hmem => absurd (s.tiles.lt_high hmem) (lt_irrefl _)
    obtain ⟨h₁, hh₁⟩ : ∃ k : Heap, k =
      { h with brk := h.brk + nu, size := update h.size h.brk nu } := ⟨_, rfl⟩
    have hsize : ∀ a ∈ free ∪ used, h₁.size a = h.size a := by
      rintro a ha
      rw [hh₁]
      refine update_of_ne ?_ _ _
      rintro rfl
      exact hfresh ha
    have hready : Ready base start h₁ free (insert h.brk used) := by
      rw [hh₁] at hsize ⊢
      refine ⟨⟨s.base_pos, s.base_lt, s.start_le.trans (Nat.le_add_right _ _), ?_, ?_, s.ring, ?_,
        ?_⟩, fun a ha => ?_, r.freep⟩
      · obtain ⟨hroom, -⟩ := hgrant
        change 8 * (h.brk + nu) ≤ kernBase
        omega
      · refine (update_of_ne (ne_of_lt ?_) _ _).trans s.base_size
        exact lt_of_lt_of_le s.base_lt s.start_le
      · rw [Finset.union_insert]
        exact s.tiles.extend s.start_le (by omega) (update_self _ _ _) hsize
      · rw [Finset.disjoint_insert_right]
        exact ⟨fun hf => hfresh (Finset.mem_union_left _ hf), s.disjoint⟩
      · have heq := hsize a (Finset.mem_union_left _ ha)
        change a + update h.size h.brk nu a ≠ h.ptr a
        rw [show update h.size h.brk nu a = h.size a from heq]
        exact r.coalesced a ha
    have huntouched : Untouched used h h₁ := by
      intro b hb
      refine ⟨hsize b (Finset.mem_union_right _ hb), fun u hbu hub => ?_⟩
      have hend := s.tiles.high b (Finset.mem_union_right _ hb)
      rw [hh₁]
      exact ⟨rfl, update_of_ne (by omega) _ _⟩
    obtain ⟨h', free', hfree, hready', ⟨a, ha, hsizea⟩, huntouched', hbrk'⟩ :=
      free_spec hready (Finset.mem_insert_self h.brk used)
    have hused : (insert h.brk used).erase h.brk = used :=
      Finset.erase_insert fun hu => hfresh (Finset.mem_union_right _ hu)
    rw [hused] at hready' huntouched'
    have hself : h₁.size h.brk = nu := by
      rw [hh₁]
      exact update_self _ _ _
    have haccess : Heap.access { h with brk := h.brk + nu } h.brk = .ok () :=
      Heap.access_of_lt (Nat.lt_add_of_pos_right (by omega))
    refine Or.inr ⟨h', free', ?_, hready', ⟨a, ha, ?_⟩, huntouched.trans huntouched', ?_⟩
    · simp only [hdiv]
      rw [haccess, ok_bind, ← hh₁, hfree]
      rfl
    · rw [hself] at hsizea
      omega
    · rw [hbrk', hh₁]
  · rw [if_neg hgrant]
    refine Or.inl ⟨rfl, ?_⟩
    rw [not_and_or, not_lt, Bool.not_eq_true] at hgrant
    rcases hgrant with hroom | hrefused
    · right
      omega
    · exact Or.inl hrefused

/-- **`malloc`** ends.  It returns a block of the right size that was not in use, and leaves the
others untouched; or it returns null, when no free block is large enough and the kernel gives no
memory. -/
theorem malloc_spec (grant : Bool) (r : Ready base start h free used) {nbytes : ℕ}
    (hlt : units nbytes < 2 ^ 28) :
    (∃ q h' free', malloc base grant h nbytes = .ok (h', q + 1) ∧
      Ready base start h' free' (insert q used) ∧ q ∉ used ∧ h'.size q = units nbytes ∧
      Untouched used h h') ∨
    (malloc base grant h nbytes = .ok (h, 0) ∧ (∀ a ∈ free, h.size a < units nbytes) ∧
      (grant = false ∨ kernBase ≤ 8 * (h.brk + max (units nbytes) 4096))) := by
  have s := r.sound
  have hn : 0 < units nbytes := Nat.succ_pos _
  have hfreep : h.freep ≠ 0 :=
    Nat.ne_of_gt (lt_of_lt_of_le s.base_pos (s.base_le_of_mem r.freep))
  obtain ⟨l, hl, hs⟩ := s.ring.circle h.freep r.freep
  have hlength := s.circle_length hl hs
  have hbrk := s.brk_le
  have hrounds : rounds = 2 ^ 30 := rfl
  unfold kernBase at hbrk
  simp only [malloc, setUp, if_neg hfreep, s.access_node r.freep, ok_bind]
  rcases scan grant r hn hlt hl r.freep (show l.length < rounds by omega) with
    ⟨q, h', free', heq, htaken⟩ | ⟨hsmall, hfirst, k, prevp', hk, heq⟩
  · exact Or.inl ⟨q, h', free', heq, htaken.ready, htaken.notMem, htaken.size, htaken.untouched⟩
  · simp only [heq]
    have hround : mallocBody grant (units nbytes) (h, prevp', h.freep) =
        morecore grant h (units nbytes) >>= fun r =>
          if r.2 = 0 then pure (.inr (r.1, 0)) else pure (.inl (r.1, r.2, r.1.ptr r.2)) := by
      rw [mallocBody, s.access_node r.freep, ok_bind, if_neg (not_le.mpr hfirst), if_pos rfl]
    rcases morecore_spec grant r hlt with
      ⟨hmore, hrefused⟩ | ⟨h₁, free₁, hmore, hready, ⟨a, ha, hfit⟩, huntouched, -⟩
    · right
      refine ⟨loop_of_leave ?_, fun a ha => ?_, hrefused⟩
      · rw [hround, hmore]
        rfl
      · have hnode : a ∈ h.freep :: l := by
          rw [← List.mem_toFinset, hs]
          exact Finset.mem_insert_of_mem ha
        rcases List.mem_cons.mp hnode with rfl | hal
        · exact hfirst
        · exact hsmall a hal
    · left
      have s₁ := hready.sound
      have hfreep₁ : h₁.freep ≠ 0 :=
        Nat.ne_of_gt (lt_of_lt_of_le s₁.base_pos (s₁.base_le_of_mem hready.freep))
      have hcontinue : mallocBody grant (units nbytes) (h, prevp', h.freep) =
          .ok (.inl (h₁, h₁.freep, h₁.ptr h₁.freep)) := by
        rw [hround, hmore, ok_bind]
        simp only [if_neg hfreep₁]
        rfl
      rw [loop_of_continue hcontinue]
      obtain ⟨l₁, hl₁, hs₁⟩ := s₁.ring.circle h₁.freep hready.freep
      -- the second walk meets the block that `morecore` has put in the list
      have hnode : a ∈ h₁.freep :: l₁ := by
        rw [← List.mem_toFinset, hs₁]
        exact Finset.mem_insert_of_mem ha
      have hlength₁ := s₁.circle_length hl₁ hs₁
      have hbrk₁ := s₁.brk_le
      unfold kernBase at hbrk₁
      rcases scan grant hready hn hlt hl₁ hready.freep (show l₁.length < k by omega)
        with ⟨q, h', free', heq', htaken⟩ | ⟨hsmall₁, hfirst₁, -⟩
      · exact ⟨q, h', free', heq', htaken.ready, htaken.notMem, htaken.size,
          huntouched.trans htaken.untouched⟩
      · rcases List.mem_cons.mp hnode with rfl | hal
        · exact absurd hfit (not_le.mpr hfirst₁)
        · exact absurd hfit (not_le.mpr (hsmall₁ a hal))

/-! ## Programs -/

/-- A program: its heap, the headers of the blocks that it has, and the bytes that it asked for
in each. -/
structure Program where
  heap : Heap
  live : Finset ℕ
  asked : ℕ → ℕ

/-- What a program does: a request, which the kernel may have to grant memory for; a call of
`free`; and writing in a block. -/
inductive Event where
  | malloc (grant : Bool) (nbytes : ℕ)
  | free (ap : ℕ)
  | store (u ptr size : ℕ)

namespace Program

/-- A process that has not used the allocator yet. -/
def fresh (h : Heap) : Program := ⟨h, ∅, fun _ => 0⟩

/-- **A program that keeps to its blocks**: it frees what it has, and writes behind the headers
of what it has; a request has at most `limit` bytes. -/
def Allowed (limit : ℕ) (s : Program) : Event → Prop
  | .malloc _ nbytes => nbytes ≤ limit
  | .free ap => 0 < ap ∧ ap - 1 ∈ s.live
  | .store u _ _ => ∃ b ∈ s.live, b < u ∧ u < b + s.heap.size b

/-- One event, with the pointer that `malloc` returns. -/
def step (base : ℕ) (s : Program) : Event → Except Stuck (Program × ℕ)
  | .malloc grant nbytes => do
      let (h, r) ← Umalloc.malloc base grant s.heap nbytes
      if r = 0 then pure ({ s with heap := h }, r)
      else pure (⟨h, insert (r - 1) s.live, update s.asked (r - 1) nbytes⟩, r)
  | .free ap => do
      let h ← Umalloc.free s.heap ap
      pure (⟨h, s.live.erase (ap - 1), s.asked⟩, 0)
  | .store u ptr size => do
      s.heap.access u
      pure ({ s with heap := { s.heap with
        ptr := update s.heap.ptr u ptr
        size := update s.heap.size u size } }, 0)

/-- The steps of a program that keeps to its blocks. -/
def Step (base limit : ℕ) (s : Program) (e : Event) (o : ℕ) (s' : Program) : Prop :=
  s.Allowed limit e ∧ s.step base e = .ok (s', o)

/-- The largest request that `morecore` can pass on. -/
def maxRequest : ℕ := 2 ^ 31 - 16

theorem units_lt {nbytes : ℕ} (h : nbytes ≤ maxRequest) :
    units nbytes < 2 ^ 28 ∧ nbytes + 8 ≤ 8 * units nbytes := by
  unfold maxRequest at h
  unfold units
  omega

/-- What holds between two events. -/
structure Good (base start : ℕ) (s : Program) : Prop where
  unused : s.heap.freep = 0 → s.live = ∅
  ready : ∃ free, Ready base start (setUp base s.heap) free s.live
  room : ∀ b ∈ s.live, s.asked b + 8 ≤ 8 * s.heap.size b

theorem setUp_of_ne {h : Heap} (hf : h.freep ≠ 0) : setUp base h = h := by
  rw [setUp, if_neg hf]

theorem Ready.setUp_eq (r : Ready base start h free used) : setUp base h = h :=
  setUp_of_ne (Nat.ne_of_gt (lt_of_lt_of_le r.sound.base_pos (r.sound.base_le_of_mem r.freep)))

theorem setUp_setUp (hbase : 0 < base) (h : Heap) : setUp base (setUp base h) = setUp base h := by
  by_cases hf : h.freep = 0
  · refine setUp_of_ne ?_
    rw [setUp, if_pos hf]
    exact Nat.ne_of_gt hbase
  · rw [setUp_of_ne hf, setUp_of_ne hf]

theorem malloc_setUp (hbase : 0 < base) (h : Heap) (nbytes : ℕ) :
    malloc base grant h nbytes = malloc base grant (setUp base h) nbytes := by
  rw [malloc, malloc, setUp_setUp hbase]

/-- The first call finds an empty list. -/
theorem good_fresh (hbase : 0 < base) (hstart : base < start) (hfreep : h.freep = 0)
    (hbrk : h.brk = start) (hkern : 8 * start ≤ kernBase) :
    (fresh h).Good base start where
  unused _ := rfl
  ready := by
    have heq : setUp base h = { h with
        ptr := update h.ptr base base, size := update h.size base 0, freep := base } := by
      rw [setUp, if_pos hfreep]
    refine ⟨∅, ?_⟩
    change Ready base start (setUp base h) ∅ ∅
    rw [heq]
    refine ⟨⟨hbase, hstart, hbrk.ge, hbrk ▸ hkern, update_self _ _ _, ?_, ?_,
      Finset.disjoint_empty_left _⟩, fun a ha => absurd ha (Finset.notMem_empty a),
      Finset.mem_insert_self _ _⟩
    · exact Ring.singleton (update_self _ _ _)
    · rw [Finset.empty_union]
      change Tiles ∅ _ start h.brk
      rw [hbrk]
      exact Tiles.empty start _
  room b hb := absurd hb (Finset.notMem_empty b)

variable {s s' : Program} {e : Event} {o limit : ℕ}

/-- Without blocks nothing has to be kept. -/
theorem untouched_setUp (g : s.Good base start) : Untouched s.live s.heap (setUp base s.heap) := by
  by_cases hf : s.heap.freep = 0
  · intro b hb
    rw [g.unused hf] at hb
    exact absurd hb (Finset.notMem_empty b)
  · rw [setUp_of_ne hf]
    exact Untouched.refl _ _

theorem Good.heap_eq (g : s.Good base start) (hb : b ∈ s.live) :
    setUp base s.heap = s.heap := by
  refine setUp_of_ne fun hf => ?_
  rw [g.unused hf] at hb
  exact absurd hb (Finset.notMem_empty b)

/-- What a call does: `malloc` returns a new block, or null for a reason, `free` takes a block
away, and the blocks of the program are untouched. -/
structure Called (s : Program) (e : Event) (s' : Program) (o : ℕ) : Prop where
  kept : Untouched (s.live ∩ s'.live) s.heap s'.heap
  block : ∀ grant nbytes, e = .malloc grant nbytes → o ≠ 0 →
    o - 1 ∉ s.live ∧ s'.live = insert (o - 1) s.live ∧ s'.heap.size (o - 1) = units nbytes
  null : ∀ grant nbytes, e = .malloc grant nbytes → o = 0 →
    s'.live = s.live ∧ (grant = false ∨ kernBase ≤ 8 * (s.heap.brk + max (units nbytes) 4096))
  freed : ∀ ap, e = .free ap → s'.live = s.live.erase (ap - 1)

/-- **A request.** -/
theorem Good.request (g : s.Good base start) (hbase : 0 < base) {nbytes : ℕ}
    (hn : nbytes ≤ maxRequest) :
    ∃ s' o, s.step base (.malloc grant nbytes) = .ok (s', o) ∧ s'.Good base start ∧
      Called s (.malloc grant nbytes) s' o := by
  obtain ⟨free, r⟩ := g.ready
  obtain ⟨hunits, hroom⟩ := units_lt hn
  have hsetUp := untouched_setUp g
  rcases malloc_spec grant r hunits with
    ⟨q, h', free', heq, hready, hq, hsize, huntouched⟩ | ⟨heq, hsmall, hrefused⟩
  · rw [← malloc_setUp hbase] at heq
    have hkept := hsetUp.trans huntouched
    refine ⟨⟨h', insert q s.live, update s.asked q nbytes⟩, q + 1, ?_, ⟨fun hf => ?_, ⟨free', ?_⟩,
      fun b hb => ?_⟩, ⟨?_, fun grant' nbytes' he _ => ?_, fun _ _ _ h => absurd h
        (Nat.succ_ne_zero q), fun ap he => Event.noConfusion he⟩⟩
    · rw [step, heq, ok_bind]
      simp only [Nat.succ_ne_zero, if_false, Nat.add_sub_cancel]
      rfl
    · exact absurd (hf ▸ hready.sound.base_le_of_mem hready.freep) (not_le.mpr hbase)
    · change Ready base start (setUp base h') free' (insert q s.live)
      rw [Ready.setUp_eq hready]
      exact hready
    · by_cases hbq : b = q
      · rw [hbq]
        change update s.asked q nbytes q + 8 ≤ 8 * h'.size q
        rw [update_self, hsize]
        exact hroom
      · have hold : b ∈ s.live := Finset.mem_of_mem_insert_of_ne hb hbq
        change update s.asked q nbytes b + 8 ≤ 8 * h'.size b
        rw [update_of_ne hbq, (hkept b hold).1]
        exact g.room b hold
    · exact fun b hb => hkept b (Finset.mem_of_mem_inter_left hb)
    · obtain ⟨rfl, rfl⟩ := Event.malloc.inj he
      exact ⟨hq, rfl, hsize⟩
  · rw [← malloc_setUp hbase] at heq
    refine ⟨{ s with heap := setUp base s.heap }, 0, ?_, ⟨fun hf => ?_, ⟨free, ?_⟩,
      fun b hb => ?_⟩, ⟨?_, fun _ _ _ h => absurd rfl h, fun grant' nbytes' he _ => ?_,
        fun ap he => Event.noConfusion he⟩⟩
    · rw [step, heq, ok_bind]
      rfl
    · exact absurd (hf ▸ r.sound.base_le_of_mem r.freep) (not_le.mpr hbase)
    · change Ready base start (setUp base (setUp base s.heap)) free s.live
      rw [setUp_setUp hbase]
      exact r
    · exact ((hsetUp b hb).1).symm ▸ g.room b hb
    · exact fun b hb => hsetUp b (Finset.mem_of_mem_inter_left hb)
    · obtain ⟨rfl, rfl⟩ := Event.malloc.inj he
      refine ⟨rfl, hrefused.imp id fun h => ?_⟩
      have hbrk : (setUp base s.heap).brk = s.heap.brk := by
        rw [setUp]
        split <;> rfl
      rwa [hbrk] at h

/-- **A block is given back.** -/
theorem Good.release (g : s.Good base start) (hbase : 0 < base) {ap : ℕ} (hap : 0 < ap)
    (hlive : ap - 1 ∈ s.live) :
    ∃ s' o, s.step base (.free ap) = .ok (s', o) ∧ s'.Good base start ∧
      Called s (.free ap) s' o := by
  obtain ⟨b, rfl⟩ := Nat.exists_eq_succ_of_ne_zero (Nat.ne_of_gt hap)
  have hb : b ∈ s.live := hlive
  obtain ⟨free, r⟩ := g.ready
  rw [g.heap_eq hb] at r
  obtain ⟨h', free', heq, hready, -, huntouched, -⟩ := free_spec r hb
  refine ⟨⟨h', s.live.erase b, s.asked⟩, 0, ?_, ⟨fun hf => ?_, ⟨free', ?_⟩, fun c hc => ?_⟩,
    ⟨?_, fun _ _ he => Event.noConfusion he, fun _ _ he => Event.noConfusion he,
      fun ap he => ?_⟩⟩
  · rw [step]
    change (Umalloc.free s.heap (b + 1) >>= _) = _
    rw [heq, ok_bind]
    rfl
  · exact absurd (hf ▸ hready.sound.base_le_of_mem hready.freep) (not_le.mpr hbase)
  · change Ready base start (setUp base h') free' (s.live.erase b)
    rw [Ready.setUp_eq hready]
    exact hready
  · change s.asked c + 8 ≤ 8 * h'.size c
    rw [(huntouched c hc).1]
    exact g.room c (Finset.mem_of_mem_erase hc)
  · exact fun c hc => huntouched c (Finset.mem_of_mem_inter_right hc)
  · rw [← Event.free.inj he]
    rfl

/-- **A block is written.** -/
theorem Good.write (g : s.Good base start) {u ptr size : ℕ} (hb : b ∈ s.live) (hbu : b < u)
    (hub : u < b + s.heap.size b) :
    ∃ s' o, s.step base (.store u ptr size) = .ok (s', o) ∧ s'.Good base start := by
  obtain ⟨free, r⟩ := g.ready
  rw [g.heap_eq hb] at r
  have s₀ := r.sound
  have hne : ∀ a ∈ insert base (free ∪ s.live), a ≠ u := fun a ha hau =>
    s₀.ne_of_inside (Finset.mem_union_right _ hb) hbu hub ha hau.symm
  have hfree : ∀ a ∈ free, a ≠ u := fun a ha =>
    hne a (Finset.mem_insert_of_mem (Finset.mem_union_left _ ha))
  have hlive : ∀ a ∈ s.live, a ≠ u := fun a ha =>
    hne a (Finset.mem_insert_of_mem (Finset.mem_union_right _ ha))
  have hready : Ready base start { s.heap with
      ptr := update s.heap.ptr u ptr, size := update s.heap.size u size } free s.live := by
    refine ⟨⟨s₀.base_pos, s₀.base_lt, s₀.start_le, s₀.brk_le, ?_, ?_, ?_, s₀.disjoint⟩,
      fun a ha => ?_, r.freep⟩
    · exact (update_of_ne (hne base (Finset.mem_insert_self _ _)) _ _).trans s₀.base_size
    · refine s₀.ring.congr fun a ha => update_of_ne (hne a ?_) _ _
      rw [← Finset.insert_union]
      exact Finset.mem_union_left _ ha
    · exact s₀.tiles.congr fun a ha => update_of_ne (hne a (Finset.mem_insert_of_mem ha)) _ _
    · simp only [update_of_ne (hfree a ha)]
      exact r.coalesced a ha
  have hinside : s.heap.access u = .ok () := by
    have hend := s₀.tiles.high b (Finset.mem_union_right _ hb)
    exact Heap.access_of_lt (by omega)
  refine ⟨⟨{ s.heap with
      ptr := update s.heap.ptr u ptr, size := update s.heap.size u size }, s.live, s.asked⟩, 0, ?_,
    fun hf => g.unused hf, ⟨free, ?_⟩, fun a ha => ?_⟩
  · rw [step, hinside]
    rfl
  · change Ready base start (setUp base _) free s.live
    rw [Ready.setUp_eq hready]
    exact hready
  · change s.asked a + 8 ≤ 8 * update s.heap.size u size a
    rw [update_of_ne (hlive a ha)]
    exact g.room a ha

/-- **Every event that is allowed happens**, and what is good stays so. -/
theorem Good.progress (g : s.Good base start) (hbase : 0 < base) (hlimit : limit ≤ maxRequest)
    (he : s.Allowed limit e) :
    ∃ s' o, Step base limit s e o s' ∧ s'.Good base start ∧
      ((∀ u ptr size, e ≠ .store u ptr size) → Called s e s' o) := by
  cases e with
  | malloc grant nbytes =>
    obtain ⟨s', o, hstep, hgood, hcalled⟩ := g.request hbase (le_trans he hlimit)
    exact ⟨s', o, ⟨he, hstep⟩, hgood, fun _ => hcalled⟩
  | free ap =>
    obtain ⟨s', o, hstep, hgood, hcalled⟩ := g.release hbase he.1 he.2
    exact ⟨s', o, ⟨he, hstep⟩, hgood, fun _ => hcalled⟩
  | store u ptr size =>
    obtain ⟨b, hb, hbu, hub⟩ := he
    obtain ⟨s', o, hstep, hgood⟩ := g.write hb hbu hub
    exact ⟨s', o, ⟨⟨b, hb, hbu, hub⟩, hstep⟩, hgood, fun hno => absurd rfl (hno u ptr size)⟩

theorem Good.step (g : s.Good base start) (hbase : 0 < base) (hlimit : limit ≤ maxRequest)
    (hstep : Step base limit s e o s') : s'.Good base start := by
  obtain ⟨s₁, o₁, ⟨-, heq⟩, hgood, -⟩ := g.progress hbase hlimit hstep.1
  obtain ⟨rfl, rfl⟩ := Prod.mk.inj (Except.ok.inj (heq.symm.trans hstep.2))
  exact hgood

/-- **The allocator over a whole run** of a program that keeps to its blocks.  The free blocks
are a circular list in the order of their addresses, no two of them side by side; they and the
blocks of the program tile the heap; every block has the room that was asked for; and every
call returns, with a block that was not in use, or with null when the kernel gives no memory,
and with the other blocks as they were. -/
theorem run_ready (hbase : 0 < base) (hstart : base < start) (hfreep : h.freep = 0)
    (hbrk : h.brk = start) (hkern : 8 * start ≤ kernBase) (hlimit : limit ≤ maxRequest)
    {tr : List (Event × ℕ)} (hrun : Run (Step base limit) (fresh h) tr s) :
    (∃ free, Ready base start (setUp base s.heap) free s.live) ∧
      (∀ b ∈ s.live, s.asked b + 8 ≤ 8 * s.heap.size b) ∧
      ∀ e, s.Allowed limit e → ∃ s' o, Step base limit s e o s' ∧
        ((∀ u ptr size, e ≠ .store u ptr size) → Called s e s' o) := by
  have g : s.Good base start := hrun.invariant (P := Good base start)
    (fun _ _ _ _ hg hstep => hg.step hbase hlimit hstep)
    (good_fresh hbase hstart hfreep hbrk hkern)
  refine ⟨g.ready, g.room, fun e he => ?_⟩
  obtain ⟨s', o, hstep, -, hcalled⟩ := g.progress hbase hlimit he
  exact ⟨s', o, hstep, hcalled⟩

instance (limit : ℕ) (s : Program) : (e : Event) → Decidable (s.Allowed limit e)
  | .malloc _ nbytes => inferInstanceAs (Decidable (nbytes ≤ limit))
  | .free ap => inferInstanceAs (Decidable (0 < ap ∧ ap - 1 ∈ s.live))
  | .store u _ _ => inferInstanceAs (Decidable (∃ b ∈ s.live, b < u ∧ u < b + s.heap.size b))

theorem eq_ok_of_toOption {α : Type} {x : Except Stuck α} {a : α} (h : x.toOption = some a) :
    x = .ok a := by
  cases x with
  | error e => cases h
  | ok b => rw [Option.some.inj h]

/-- A process of three pages that has not asked for memory yet. -/
def threePages : Heap := ⟨fun _ => 0, fun _ => 0, 0, 3 * pageUnits⟩

/-- Three blocks, of 14, 26 and 8 units from the top of the heap down; the second is written,
and the first two are freed and become one, the end of which serves the next request.  The kernel
then refuses more memory. -/
def reuse : List Event :=
  [.malloc true 100, .malloc true 200, .malloc true 50, .store 5600 7 7, .free 5619, .free 5593,
    .malloc true 300, .malloc false 40000]

theorem run_ready_reuse :
    ∃ (tr : List (Event × ℕ)) (s : Program), Run (Step 100 maxRequest) (fresh threePages) tr s ∧
      tr.map Prod.snd = [5619, 5593, 5585, 0, 0, 0, 5594, 0] ∧ s.live = {5584, 5593} ∧
      (∃ free, Ready 100 (3 * pageUnits) (setUp 100 s.heap) free s.live) ∧
      (∀ b ∈ s.live, s.asked b + 8 ≤ 8 * s.heap.size b) ∧
      ∀ e, s.Allowed maxRequest e → ∃ s' o, Step 100 maxRequest s e o s' ∧
        ((∀ u ptr size, e ≠ .store u ptr size) → Called s e s' o) := by
  obtain ⟨tr, s, hrun, hobs⟩ := Run.exists_of_play_guarded (l := reuse) (s := fresh threePages)
    (f := fun s e => (s.step 100 e).toOption) (c := Allowed maxRequest)
    (fun r => (r.2.map Prod.snd, decide (r.1.live = {5584, 5593})))
    (v := ([5619, 5593, 5585, 0, 0, 0, 5594, 0], true)) (by decide +kernel)
  have hstep : Run (Step 100 maxRequest) (fresh threePages) tr s :=
    hrun.mono fun s e o t h => ⟨h.1, eq_ok_of_toOption h.2⟩
  obtain ⟨houts, hlive⟩ := Prod.mk.inj hobs
  exact ⟨tr, s, hstep, houts, of_decide_eq_true hlive, run_ready (by decide) (by decide) rfl rfl
    (by decide) (le_refl _) hstep⟩

/-! ## A request that is too large -/

/-- The list has no block in it. -/
structure Drained (base : ℕ) (h : Heap) : Prop where
  freep : h.freep = base
  ptr : h.ptr base = base
  size : h.size base = 0

theorem drained_setUp (hfreep : h.freep = 0) : Drained base (setUp base h) := by
  rw [setUp, if_pos hfreep]
  exact ⟨rfl, update_self _ _ _, update_self _ _ _⟩

/-- The first block that comes into the list. -/
theorem free_of_drained (d : Drained base h) (hbase : base < b) (hlt : base < 2 ^ 29)
    (haccess : h.access base = .ok ()) (hblock : h.access b = .ok ())
    (hplus : plus b (h.size b) ≠ base) :
    Umalloc.free h (b + 1) =
      .ok { h with ptr := update (update h.ptr b base) base b, freep := base } := by
  have hplace : loop Stuck.timeout (placeBody h b) rounds h.freep = .ok base := by
    refine loop_of_leave ?_
    rw [placeBody, d.freep, haccess, ok_bind, d.ptr, if_neg fun hin => by omega,
      if_pos ⟨le_refl base, Or.inl hbase⟩]
    rfl
  have hdown : plus base (h.size base) ≠ b := by
    have hmod : plus base 0 = base := Nat.mod_eq_of_lt hlt
    rw [d.size, hmod]
    exact ne_of_lt hbase
  rw [Umalloc.free, Nat.add_sub_cancel, hplace, ok_bind, mergeUp, hblock, ok_bind, d.ptr,
    if_neg hplus, pure_eq_ok, ok_bind, mergeDown, if_neg hdown]
  rfl

/-- `morecore` with an empty list: what lies at the old end of the process is the only block,
whether or not the process has grown. -/
theorem morecore_of_drained {brk : ℕ} (d : Drained base h) (hbase : base < h.brk)
    (hkern : 8 * h.brk < kernBase) (hgrow : h.brk ≤ brk) (hn : 4096 ≤ n)
    (hsbrk : sbrk true h.brk (n * 8 % 2 ^ 32) = some brk)
    (hborder : Heap.access { h with brk := brk } h.brk = .ok ()) (hplus : plus h.brk n ≠ base) :
    morecore true h n = .ok ({ h with
      brk := brk
      size := update h.size h.brk n
      ptr := update (update h.ptr h.brk base) base h.brk
      freep := base }, base) := by
  unfold kernBase at hkern
  have hsize : update h.size h.brk n h.brk = n := update_self _ _ _
  have d' : Drained base { h with brk := brk, size := update h.size h.brk n } :=
    ⟨d.freep, d.ptr, (update_of_ne (ne_of_lt hbase) _ _).trans d.size⟩
  have hinside : Heap.access { h with brk := brk, size := update h.size h.brk n } base = .ok () :=
    Heap.access_of_lt (lt_of_lt_of_le hbase hgrow)
  have hfree := free_of_drained d' hbase (by omega) hinside hborder (by
    change plus h.brk (update h.size h.brk n h.brk) ≠ base
    rwa [hsize])
  simp only [morecore, if_neg (not_lt.mpr hn), hsbrk]
  rw [hborder, ok_bind, hfree]
  rfl

/-- **A request that `morecore` alone serves.** -/
theorem malloc_of_drained {brk nbytes : ℕ} (d : Drained base (setUp base h)) (hpos : 0 < base)
    (hbase : base < h.brk) (hkern : 8 * h.brk < kernBase) (hgrow : h.brk ≤ brk)
    (hn : 4096 ≤ units nbytes)
    (hsbrk : sbrk true h.brk (units nbytes * 8 % 2 ^ 32) = some brk)
    (hborder : Heap.access { h with brk := brk } h.brk = .ok ())
    (hplus : plus h.brk (units nbytes) ≠ base) :
    ∃ h', malloc base true h nbytes = .ok (h', h.brk + 1) ∧ Drained base h' ∧
      h'.size h.brk = units nbytes ∧ h'.brk = brk := by
  obtain ⟨n, hunits⟩ : ∃ n, units nbytes = n := ⟨_, rfl⟩
  rw [hunits] at hn hsbrk hplus ⊢
  obtain ⟨k, hk⟩ : ∃ k, setUp base h = k := ⟨_, rfl⟩
  have hbrk : k.brk = h.brk := by
    rw [← hk, setUp]
    split <;> rfl
  rw [hk] at d
  rw [← hbrk] at hbase hkern hgrow hsbrk hplus ⊢
  have hborder' : ∀ k' : Heap, k'.brk = brk → k'.access k.brk = .ok () := fun k' hk' => by
    rw [hbrk, ← hborder, Heap.access, Heap.access, hk']
  have hmore := morecore_of_drained d hbase hkern hgrow hn hsbrk (hborder' _ rfl) hplus
  obtain ⟨k', hk'⟩ : ∃ k' : Heap, k' = { k with
      brk := brk
      size := update k.size k.brk n
      ptr := update (update k.ptr k.brk base) base k.brk
      freep := base } := ⟨_, rfl⟩
  rw [← hk'] at hmore
  have hne : base ≠ k.brk := ne_of_lt hbase
  have hnew : k'.ptr base = k.brk := by
    rw [hk']
    exact update_self _ _ _
  have hlast : k'.ptr k.brk = base := by
    rw [hk']
    exact (update_of_ne (Ne.symm hne) _ _).trans (update_self _ _ _)
  have hsize : k'.size k.brk = n := by
    rw [hk']
    exact update_self _ _ _
  have hzero : k'.size base = 0 := by
    rw [hk']
    exact (update_of_ne hne _ _).trans d.size
  -- the first round comes round the list, and the second takes the new block
  have hfirst : mallocBody true n (k, base, base) = .ok (.inl (k', base, k.brk)) := by
    rw [mallocBody, Heap.access_of_lt hbase, ok_bind, d.size, if_neg (by omega),
      if_pos d.freep.symm, hmore, ok_bind]
    simp only [if_neg (Nat.ne_of_gt hpos), hnew]
    rfl
  have hsecond : mallocBody true n (k', base, k.brk) =
      .ok (.inr ({ k' with ptr := update k'.ptr base base, freep := base }, k.brk + 1)) := by
    rw [mallocBody, hborder' k' (by rw [hk']), ok_bind, if_pos (ge_of_eq hsize), if_pos hsize,
      hlast]
    rfl
  refine ⟨{ k' with ptr := update k'.ptr base base, freep := base }, ?_,
    ⟨rfl, update_self _ _ _, hzero⟩, hsize, by rw [hk']⟩
  have hrounds : rounds = 2 ^ 30 - 2 + 1 + 1 := rfl
  simp only [malloc, hk, hunits, d.freep, d.ptr]
  rw [Heap.access_of_lt hbase, ok_bind, hrounds, loop_of_continue hfirst, loop_of_leave hsecond]

/-- The same as an event of a program. -/
theorem request_of_drained {brk nbytes : ℕ} (d : Drained base (setUp base s.heap))
    (hpos : 0 < base) (hbase : base < s.heap.brk) (hkern : 8 * s.heap.brk < kernBase)
    (hgrow : s.heap.brk ≤ brk) (hn : 4096 ≤ units nbytes)
    (hsbrk : sbrk true s.heap.brk (units nbytes * 8 % 2 ^ 32) = some brk)
    (hborder : Heap.access { s.heap with brk := brk } s.heap.brk = .ok ())
    (hplus : plus s.heap.brk (units nbytes) ≠ base) :
    ∃ s', s.step base (.malloc true nbytes) = .ok (s', s.heap.brk + 1) ∧
      Drained base s'.heap ∧ s.heap.brk ∈ s'.live ∧
      s'.heap.size s.heap.brk = units nbytes ∧ s'.heap.brk = brk := by
  obtain ⟨h', heq, hdrained, hsize, hbrk⟩ :=
    malloc_of_drained d hpos hbase hkern hgrow hn hsbrk hborder hplus
  refine ⟨⟨h', insert s.heap.brk s.live, update s.asked s.heap.brk nbytes⟩, ?_, hdrained,
    Finset.mem_insert_self _ _, hsize, hbrk⟩
  rw [step, heq, ok_bind]
  rfl

/-- **One byte too much** in a process that ends within a page: `sbrk` takes 2^31 bytes for a
negative number and succeeds, and the block is behind the process. -/
theorem exists_outside (d : Drained base (setUp base s.heap)) (hpos : 0 < base)
    (hbase : base < s.heap.brk) (hkern : 8 * s.heap.brk < kernBase)
    (hpage : s.heap.brk % pageUnits ≠ 0) (hlimit : maxRequest < limit) :
    ∃ s', Step base limit s (.malloc true (maxRequest + 1)) (s.heap.brk + 1) s' ∧
      ∃ b ∈ s'.live, s'.heap.brk < b + s'.heap.size b := by
  have hunits : units (maxRequest + 1) = 2 ^ 28 := by decide
  have hsbrk : sbrk true s.heap.brk (2 ^ 28 * 8 % 2 ^ 32) = some s.heap.brk := by
    unfold kernBase at hkern
    rw [sbrk, if_neg (by omega), if_neg (by omega), if_pos (by omega)]
  have hborder : Heap.access { s.heap with brk := s.heap.brk } s.heap.brk = .ok () := by
    have hround : s.heap.brk < (s.heap.brk + (pageUnits - 1)) / pageUnits * pageUnits := by
      unfold pageUnits at hpage ⊢
      omega
    rw [Heap.access, if_pos hround]
  have hplus : plus s.heap.brk (2 ^ 28) ≠ base := by
    unfold kernBase at hkern
    unfold plus
    omega
  rw [← hunits] at hsbrk hplus
  obtain ⟨s', hstep, -, hlive, hsize, hbrk⟩ := request_of_drained d hpos hbase hkern
    (le_refl _) (by rw [hunits]; omega) hsbrk hborder hplus
  refine ⟨s', ⟨hlimit, hstep⟩, s.heap.brk, hlive, ?_⟩
  rw [hbrk, hsize, hunits]
  omega

/-- **A request of 4097 units** leaves a process of whole pages with a break within a page. -/
theorem exists_break_within_page (hbase : 0 < base) (hstart : base < start)
    (hroom : 8 * (start + 4097) < kernBase) (hfreep : h.freep = 0) (hbrk : h.brk = start)
    (hpage : start % pageUnits = 0) (hlimit : maxRequest < limit) :
    ∃ s, Step base limit (fresh h) (.malloc true 32768) (start + 1) s ∧
      Drained base (setUp base s.heap) ∧ s.heap.brk = start + 4097 ∧
      s.heap.brk % pageUnits ≠ 0 := by
  subst hbrk
  have hkern := hroom
  unfold kernBase at hkern
  have hunits : units 32768 = 4097 := by decide
  have hsbrk : sbrk true h.brk (units 32768 * 8 % 2 ^ 32) = some (h.brk + 4097) := by
    obtain ⟨n, hn⟩ : ∃ n, n = units 32768 * 8 % 2 ^ 32 := ⟨_, rfl⟩
    have hbytes : n = 32776 := by
      rw [hn, hunits]
      rfl
    rw [← hn, sbrk, if_neg (by omega), if_pos (by omega),
      if_pos ⟨by unfold kernBase; omega, rfl⟩]
    congr 1
    omega
  have hplus : plus h.brk (units 32768) ≠ base := by
    rw [hunits]
    unfold plus
    omega
  obtain ⟨s, hstep, hdrained, -, -, hbrk⟩ := request_of_drained (s := fresh h)
    (drained_setUp hfreep) hbase hstart (by change 8 * h.brk < kernBase; omega)
    (Nat.le_add_right _ 4097) (by rw [hunits]; omega) hsbrk
    (Heap.access_of_lt (Nat.lt_add_of_pos_right (by omega))) hplus
  refine ⟨s, ⟨?_, hstep⟩, ?_, hbrk, ?_⟩
  · change 32768 ≤ limit
    unfold maxRequest at hlimit
    omega
  · rw [setUp_of_ne (by rw [hdrained.freep]; exact Nat.ne_of_gt hbase)]
    exact hdrained
  · change s.heap.brk = h.brk + 4097 at hbrk
    rw [hbrk]
    unfold pageUnits at hpage ⊢
    omega

/-- **The largest request.**  In every run of a process with room for 4097 units the blocks of
the program lie in its memory, exactly if its requests are bounded by 2^31 − 16 bytes. -/
theorem inside_iff (limit : ℕ) (hbase : 0 < base) (hstart : base < start)
    (hroom : 8 * (start + 4097) < kernBase) :
    (∀ (h : Heap) (tr : List (Event × ℕ)) (s : Program), h.freep = 0 → h.brk = start →
      Run (Step base limit) (fresh h) tr s →
        ∀ b ∈ s.live, b + s.heap.size b ≤ s.heap.brk) ↔ limit ≤ maxRequest := by
  constructor
  · intro hall
    by_contra hlimit
    rw [not_le] at hlimit
    obtain ⟨h, hfreep, hbrk⟩ : ∃ h : Heap, h.freep = 0 ∧ h.brk = start :=
      ⟨⟨fun _ => 0, fun _ => 0, 0, start⟩, rfl, rfl⟩
    by_cases hpage : start % pageUnits = 0
    · obtain ⟨s₁, hstep₁, hdrained, hbrk₁, hpage₁⟩ :=
        exists_break_within_page hbase hstart hroom hfreep hbrk hpage hlimit
      obtain ⟨s₂, hstep₂, b, hb, hend⟩ := exists_outside hdrained hbase (by omega)
        (by rw [hbrk₁]; exact hroom) hpage₁ hlimit
      exact absurd (hall h _ s₂ hfreep hbrk (Run.cons hstep₁ (Run.cons hstep₂ (Run.nil s₂))) b hb)
        (not_le.mpr hend)
    · subst hbrk
      obtain ⟨s₁, hstep, b, hb, hend⟩ := exists_outside (s := fresh h) (drained_setUp hfreep) hbase
        hstart (by change 8 * h.brk < kernBase; omega) hpage hlimit
      exact absurd (hall h _ s₁ hfreep rfl (Run.cons hstep (Run.nil s₁)) b hb) (not_le.mpr hend)
  · intro hlimit h tr s hfreep hbrk hrun b hb
    have g : s.Good base start := hrun.invariant (P := Good base start)
      (fun _ _ _ _ hg hstep => hg.step hbase hlimit hstep)
      (good_fresh hbase hstart hfreep hbrk (by omega))
    obtain ⟨free, r⟩ := g.ready
    rw [g.heap_eq hb] at r
    exact r.sound.tiles.high b (Finset.mem_union_right _ hb)

/-- A process of three pages. -/
theorem inside_iff_threePages :
    (∀ (h : Heap) (tr : List (Event × ℕ)) (s : Program), h.freep = 0 → h.brk = 3 * pageUnits →
      Run (Step 100 maxRequest) (fresh h) tr s →
        ∀ b ∈ s.live, b + s.heap.size b ≤ s.heap.brk) ∧
      ¬ ∀ (h : Heap) (tr : List (Event × ℕ)) (s : Program), h.freep = 0 →
        h.brk = 3 * pageUnits → Run (Step 100 (maxRequest + 1)) (fresh h) tr s →
          ∀ b ∈ s.live, b + s.heap.size b ≤ s.heap.brk :=
  ⟨(inside_iff maxRequest (by decide) (by decide) (by decide)).mpr (le_refl _), fun hall =>
    absurd ((inside_iff (maxRequest + 1) (by decide) (by decide) (by decide)).mp hall)
      (Nat.not_succ_le_self _)⟩

end Program

end Umalloc
end Xv6
end SystemsProjects

import SystemsProjects.Lib.Exec
import SystemsProjects.Xv6.StoredFiles

/-!
# A store of files

The inode cache is write-through: what a process sees of a file is on the disk at the end of each
call, and an entry of the cache may be recycled at any time.

A run of creations, reads, writes, changes of the other fields and drops of references, for any
files, is then a run of a store that has a string of bytes and a number of links for each file: a
write replaces a piece of one string, a read returns a piece, and a file loses its bytes when its
last reference is dropped and it has no links.
-/

namespace SystemsProjects
namespace Xv6
namespace Files

open Lib Function

variable {sb : Superblock} {d d' : Disk} {ip ip' : Inode} {i j : Fin sb.ninodes}

/-! ## Calls -/

/-- `T_DEV` -/
def tdev : ℕ := 3

/-- The disk, and the inodes in the cache that are valid. -/
structure Fs (sb : Superblock) where
  disk : Disk
  cache : Fin sb.ninodes → Option Inode

/-- A new inode, a read, a write, a change of the fields that system calls set, and that the last
reference to an inode is dropped: its entry in the cache may be used for another then. -/
inductive Call (ninodes : ℕ) where
  | create (type : ℕ)
  | read (i : Fin ninodes) (off n : ℕ)
  | write (i : Fin ninodes) (off : ℕ) (src : List UInt8)
  | change (i : Fin ninodes) (major minor nlink : ℕ)
  | put (i : Fin ninodes)

/-- What a call returns, or for `put` whether the inode was freed.  Reads and writes of a device do
not come to the file system. -/
inductive Out where
  | made (inum : ℕ)
  | data (l : List UInt8)
  | done
  | failed
  | device
  | freed
  deriving DecidableEq

/-- The arguments are of type `uint` or `short`, and a new inode has a type. -/
def Call.Fits {n : ℕ} : Call n → Prop
  | .create type => type ≠ 0 ∧ type < 2 ^ 16
  | .read _ off n => off < 2 ^ 32 ∧ n < 2 ^ 32
  | .write _ off src => off < 2 ^ 32 ∧ src.length < 2 ^ 32
  | .change _ major minor nlink => major < 2 ^ 16 ∧ minor < 2 ^ 16 ∧ nlink < 2 ^ 16
  | .put _ => True

instance {n : ℕ} (e : Call n) : Decidable e.Fits :=
  match e with
  | .create type => inferInstanceAs (Decidable (type ≠ 0 ∧ type < 2 ^ 16))
  | .read _ off n => inferInstanceAs (Decidable (off < 2 ^ 32 ∧ n < 2 ^ 32))
  | .write _ off src => inferInstanceAs (Decidable (off < 2 ^ 32 ∧ src.length < 2 ^ 32))
  | .change _ major minor nlink =>
    inferInstanceAs (Decidable (major < 2 ^ 16 ∧ minor < 2 ^ 16 ∧ nlink < 2 ^ 16))
  | .put _ => inferInstanceAs (Decidable True)

namespace Fs

/-- `ilock` -/
def ilock (fs : Fs sb) (i : Fin sb.ninodes) : Except Panic (Fs sb × Inode) :=
  match fs.cache i with
  | some ip => return (fs, ip)
  | none =>
    let ip := dinode sb fs.disk i
    if ip.type = 0 then .error .noType
    else return ({ fs with cache := update fs.cache i (some ip) }, ip)

/-- `iput` of the last reference. -/
def iput (fs : Fs sb) (i : Fin sb.ninodes) : Except Panic (Fs sb × Out) :=
  match fs.cache i with
  | none => return (fs, .done)
  | some ip =>
    if ip.nlink = 0 then do
      let (d, ip) ← itrunc sb fs.disk i ip
      return (⟨iupdate sb d i { ip with type := 0 }, update fs.cache i none⟩, .freed)
    else return ({ fs with cache := update fs.cache i none }, .done)

/-- A call, with the inode locked. -/
def perform (fs : Fs sb) : Call sb.ninodes → Except Panic (Fs sb × Out)
  | .create type => do
      let (d, inum) ← ialloc sb fs.disk type
      return ({ fs with disk := d }, .made inum)
  | .read i off n => do
      let (fs, ip) ← fs.ilock i
      if ip.type = tdev then return (fs, .device)
      else do
        let (d, ip, r) ← readi sb fs.disk ip off n
        return (⟨d, update fs.cache i (some ip)⟩, match r with
          | some l => .data l
          | none => .failed)
  | .write i off src => do
      let (fs, ip) ← fs.ilock i
      if ip.type = tdev then return (fs, .device)
      else do
        let (d, ip, ok) ← writei sb fs.disk i ip off src
        return (⟨d, update fs.cache i (some ip)⟩, if ok then .done else .failed)
  | .change i major minor nlink => do
      let (fs, ip) ← fs.ilock i
      let ip := { ip with major := major, minor := minor, nlink := nlink }
      return (⟨iupdate sb fs.disk i ip, update fs.cache i (some ip)⟩, .done)
  | .put i => fs.iput i

/-- A call that does not end in a panic. -/
def step (fs : Fs sb) (e : Call sb.ninodes) : Option (Fs sb × Out) :=
  if e.Fits then
    match fs.perform e with
    | .ok r => some r
    | .error _ => none
  else none

/-- A call that the file system can make, with what it returns. -/
def Step (fs : Fs sb) (e : Call sb.ninodes) (o : Out) (fs' : Fs sb) : Prop :=
  fs.step e = some (fs', o)

/-- The disk is sound, an inode without a type has no bytes, and the cache has what is on the
disk. -/
structure Good (fs : Fs sb) : Prop where
  stored : Stored sb fs.disk
  untyped : ∀ j : Fin sb.ninodes, (dinode sb fs.disk j).type = 0 → (dinode sb fs.disk j).size = 0
  cached : ∀ i ip, fs.cache i = some ip → dinode sb fs.disk i = ip
  typed : ∀ i ip, fs.cache i = some ip → ip.type ≠ 0

end Fs

/-! ## The store -/

/-- **The store**: a string of bytes and a number of links for each inode. -/
structure Store (n : ℕ) where
  files : Fin n → List UInt8
  links : Fin n → ℕ

/-- **The store of files**, call by call. -/
inductive StoreStep {n : ℕ} (s : Store n) : Call n → Out → Store n → Prop where
  | create (type : ℕ) (j : Fin n) (h : s.files j = []) :
      StoreStep s (.create type) (.made j) { s with links := update s.links j 0 }
  | read (i : Fin n) (off m : ℕ) (hoff : off ≤ (s.files i).length) (hm : off + m < 2 ^ 32) :
      StoreStep s (.read i off m) (.data (((s.files i).drop off).take m)) s
  | notRead (i : Fin n) (off m : ℕ) (h : (s.files i).length < off ∨ 2 ^ 32 ≤ off + m) :
      StoreStep s (.read i off m) .failed s
  | write (i : Fin n) (off : ℕ) (src : List UInt8) (hoff : off ≤ (s.files i).length)
      (hroom : off + src.length ≤ maxfile * bsize) :
      StoreStep s (.write i off src) .done
        { s with files := update s.files i (overwrite (s.files i) off src) }
  | notWritten (i : Fin n) (off : ℕ) (src : List UInt8)
      (h : (s.files i).length < off ∨ maxfile * bsize < off + src.length) :
      StoreStep s (.write i off src) .failed s
  | readDevice (i : Fin n) (off m : ℕ) : StoreStep s (.read i off m) .device s
  | writeDevice (i : Fin n) (off : ℕ) (src : List UInt8) :
      StoreStep s (.write i off src) .device s
  | change (i : Fin n) (major minor nlink : ℕ) :
      StoreStep s (.change i major minor nlink) .done { s with links := update s.links i nlink }
  | put (i : Fin n) : StoreStep s (.put i) .done s
  | free (i : Fin n) (h : s.links i = 0) :
      StoreStep s (.put i) .freed { s with files := update s.files i [] }

/-- What the disk stores. -/
def store (sb : Superblock) (d : Disk) : Store sb.ninodes where
  files := contents sb d
  links j := (dinode sb d j).nlink

namespace Fs

variable {fs fs' : Fs sb} {o : Out}

/-- Inodes without a type are still empty when inode `i` has been written. -/
theorem untyped_update {e : Disk}
    (h : ∀ j : Fin sb.ninodes, (dinode sb d j).type = 0 → (dinode sb d j).size = 0)
    (hd : ∀ j : Fin sb.ninodes, dinode sb e j =
      update (fun j : Fin sb.ninodes => dinode sb d j) i ip' j)
    (hip : ip'.type = 0 → ip'.size = 0) (j : Fin sb.ninodes) (hj : (dinode sb e j).type = 0) :
    (dinode sb e j).size = 0 := by
  rw [hd] at hj ⊢
  by_cases hji : j = i
  · subst hji
    rw [update_self] at hj ⊢
    exact hip hj
  · rw [update_of_ne hji] at hj ⊢
    exact h j hj

/-- **After a call on inode `i`**, which has a type, the cache has what is on the disk. -/
theorem Good.called (h : fs.Good) (hstored : Stored sb d') (htype : ip'.type ≠ 0)
    (hd : ∀ j : Fin sb.ninodes, dinode sb d' j =
      update (fun j : Fin sb.ninodes => dinode sb fs.disk j) i ip' j) :
    Good (⟨d', update fs.cache i (some ip')⟩ : Fs sb) := by
  refine ⟨hstored, untyped_update h.untyped hd fun hnone => absurd hnone htype,
    fun j jp hj => ?_, fun j jp hj => ?_⟩
  · rw [hd]
    by_cases hji : j = i
    · subst hji
      simp only [update_self] at hj ⊢
      exact Option.some.inj hj
    · simp only [update_of_ne hji] at hj ⊢
      exact h.cached j jp hj
  · by_cases hji : j = i
    · subst hji
      simp only [update_self] at hj
      obtain rfl := Option.some.inj hj
      exact htype
    · simp only [update_of_ne hji] at hj
      exact h.typed j jp hj

theorem Good.ilock (h : fs.Good) (hlock : fs.ilock i = .ok (fs', ip)) :
    fs'.Good ∧ fs'.disk = fs.disk ∧ ip = dinode sb fs.disk i ∧ ip.type ≠ 0 := by
  rw [Fs.ilock] at hlock
  split at hlock
  · rename_i hcached
    cases hlock
    exact ⟨h, rfl, (h.cached i ip hcached).symm, h.typed i ip hcached⟩
  · simp only at hlock
    split at hlock
    · cases hlock
    · rename_i htype
      cases hlock
      exact ⟨h.called h.stored htype fun j => dinode_same fs.disk i j, rfl, rfl, htype⟩

theorem links_update {e : Disk} (hd : ∀ j : Fin sb.ninodes, dinode sb e j =
    update (fun j : Fin sb.ninodes => dinode sb d j) i ip' j) :
    (store sb e).links = update (store sb d).links i ip'.nlink := by
  funext j
  simp only [store, hd]
  by_cases hj : j = i
  · rw [hj, update_self, update_self]
  · rw [update_of_ne hj, update_of_ne hj]

/-- The links stay. -/
theorem store_eq {e : Disk} (hd : ∀ j : Fin sb.ninodes, dinode sb e j =
    update (fun j : Fin sb.ninodes => dinode sb d j) i ip' j)
    (hnlink : ip'.nlink = (dinode sb d i).nlink) :
    store sb e = { store sb d with files := contents sb e } := by
  have hlinks := links_update hd
  rw [hnlink] at hlinks
  have hold : update (store sb d).links i (dinode sb d i).nlink = (store sb d).links :=
    update_eq_self i (store sb d).links
  rw [Store.mk.injEq]
  exact ⟨rfl, hlinks.trans hold⟩

/-! ## One call -/

theorem Good.create (h : fs.Good) {type : ℕ} (hfits : type ≠ 0 ∧ type < 2 ^ 16)
    (hcall : fs.perform (.create type) = .ok (fs', o)) :
    fs'.Good ∧ StoreStep (store sb fs.disk) (.create type) o (store sb fs'.disk) := by
  obtain ⟨⟨d, inum⟩, halloc, hrest⟩ := bind_eq_ok.mp hcall
  cases hrest
  obtain ⟨i, rfl, htype, hstored, hd, hcontents⟩ :=
    ialloc_ok h.stored h.untyped hfits.2 halloc
  have hcache : fs.cache i = none := by
    refine Option.eq_none_iff_forall_ne_some.mpr fun ip hip => h.typed i ip hip ?_
    rw [← h.cached i ip hip, htype]
  refine ⟨⟨hstored, untyped_update h.untyped hd fun _ => rfl, fun j jp hj => ?_, h.typed⟩, ?_⟩
  · have hji : j ≠ i := by
      rintro rfl
      rw [hcache] at hj
      cases hj
    rw [hd, update_of_ne hji]
    exact h.cached j jp hj
  · have hempty : (store sb fs.disk).files i = [] :=
      List.length_eq_zero_iff.mp (length_contents.trans (h.untyped i htype))
    have hnew : store sb d = { store sb fs.disk with
        links := update (store sb fs.disk).links i 0 } := by
      rw [Store.mk.injEq]
      exact ⟨hcontents, links_update hd⟩
    simp only [hnew]
    exact .create type i hempty

theorem Good.read (h : fs.Good) {off n : ℕ} (hfits : off < 2 ^ 32 ∧ n < 2 ^ 32)
    (hcall : fs.perform (.read i off n) = .ok (fs', o)) :
    fs'.Good ∧ StoreStep (store sb fs.disk) (.read i off n) o (store sb fs'.disk) := by
  obtain ⟨⟨fs₁, ip⟩, hlock, hrest⟩ := bind_eq_ok.mp hcall
  obtain ⟨hgood, hdisk, rfl, htype⟩ := h.ilock hlock
  simp only at hrest
  split at hrest
  · cases hrest
    rw [hdisk]
    exact ⟨hgood, .readDevice i off n⟩
  · rw [← hdisk] at hrest htype ⊢
    rw [readi_eq hgood.stored hfits.1 hfits.2, ok_bind] at hrest
    have hsame := dinode_same fs₁.disk i
    by_cases hfail : (contents sb fs₁.disk i).length < off ∨ 2 ^ 32 ≤ off + n
    · rw [if_pos hfail] at hrest
      cases hrest
      exact ⟨hgood.called hgood.stored htype hsame, .notRead i off n hfail⟩
    · rw [if_neg hfail] at hrest
      cases hrest
      have hoff : off ≤ (contents sb fs₁.disk i).length := by omega
      exact ⟨hgood.called hgood.stored htype hsame, .read i off n hoff (by omega)⟩

theorem Good.write (h : fs.Good) {off : ℕ} {src : List UInt8}
    (hfits : off < 2 ^ 32 ∧ src.length < 2 ^ 32)
    (hcall : fs.perform (.write i off src) = .ok (fs', o)) :
    fs'.Good ∧ StoreStep (store sb fs.disk) (.write i off src) o (store sb fs'.disk) := by
  obtain ⟨⟨fs₁, ip⟩, hlock, hrest⟩ := bind_eq_ok.mp hcall
  obtain ⟨hgood, hdisk, rfl, htype⟩ := h.ilock hlock
  simp only at hrest
  split at hrest
  · cases hrest
    rw [hdisk]
    exact ⟨hgood, .writeDevice i off src⟩
  · rw [← hdisk] at hrest htype ⊢
    obtain ⟨⟨e, ip', done⟩, hwrite, hrest⟩ := bind_eq_ok.mp hrest
    obtain ⟨hstored, hd, hcontents, hdone, hsame, hnlink⟩ :=
      writei_ok hgood.stored hfits.1 hfits.2 hwrite
    cases hrest
    refine ⟨hgood.called hstored (hsame ▸ htype) hd, ?_⟩
    simp only [store_eq hd hnlink, hcontents]
    by_cases hok : done = true
    · rw [if_pos hok, if_pos hok]
      exact .write i off src (hdone.mp hok).1 (hdone.mp hok).2
    · rw [if_neg hok, if_neg hok]
      have hfail := mt hdone.mpr hok
      have hfail' : (contents sb fs₁.disk i).length < off ∨
          maxfile * bsize < off + src.length := by omega
      exact .notWritten i off src hfail'

theorem Good.change (h : fs.Good) {major minor nlink : ℕ}
    (hfits : major < 2 ^ 16 ∧ minor < 2 ^ 16 ∧ nlink < 2 ^ 16)
    (hcall : fs.perform (.change i major minor nlink) = .ok (fs', o)) :
    fs'.Good ∧
      StoreStep (store sb fs.disk) (.change i major minor nlink) o (store sb fs'.disk) := by
  obtain ⟨⟨fs₁, ip⟩, hlock, hrest⟩ := bind_eq_ok.mp hcall
  obtain ⟨hgood, hdisk, rfl, htype⟩ := h.ilock hlock
  cases hrest
  rw [← hdisk] at htype ⊢
  have hold : (dinode sb fs₁.disk i).Fits := dinode_fits fs₁.disk i
  have hfit : Inode.Fits { dinode sb fs₁.disk i with
      major := major, minor := minor, nlink := nlink } :=
    ⟨hold.type, hfits.1, hfits.2.1, hfits.2.2, hold.size, hold.addrs⟩
  have hd : ∀ j : Fin sb.ninodes, dinode sb (iupdate sb fs₁.disk i { dinode sb fs₁.disk i with
      major := major, minor := minor, nlink := nlink }) j =
      update (fun j : Fin sb.ninodes => dinode sb fs₁.disk j) i { dinode sb fs₁.disk i with
        major := major, minor := minor, nlink := nlink } j :=
    dinode_iupdate_eq i hfit fun _ _ => rfl
  obtain ⟨hstored, hcontents⟩ := Sound.restored hgood.stored i hd (fun _ _ => rfl) rfl rfl
  refine ⟨hgood.called hstored htype hd, ?_⟩
  have hnew : store sb (iupdate sb fs₁.disk i { dinode sb fs₁.disk i with
      major := major, minor := minor, nlink := nlink }) = { store sb fs₁.disk with
        links := update (store sb fs₁.disk).links i nlink } := by
    rw [Store.mk.injEq]
    exact ⟨funext hcontents, links_update hd⟩
  simp only [hnew]
  exact .change i major minor nlink

theorem Good.forget (h : fs.Good) (i : Fin sb.ninodes) :
    Good ({ fs with cache := update fs.cache i none } : Fs sb) := by
  have hcache : ∀ j jp, update fs.cache i none j = some jp → fs.cache j = some jp := by
    intro j jp hj
    by_cases hji : j = i
    · rw [hji, update_self] at hj
      cases hj
    · rwa [update_of_ne hji] at hj
  exact ⟨h.stored, h.untyped, fun j jp hj => h.cached j jp (hcache j jp hj),
    fun j jp hj => h.typed j jp (hcache j jp hj)⟩

theorem Good.put (h : fs.Good) (hcall : fs.iput i = .ok (fs', o)) :
    fs'.Good ∧ StoreStep (store sb fs.disk) (.put i) o (store sb fs'.disk) := by
  rw [iput] at hcall
  split at hcall
  · cases hcall
    exact ⟨h, .put i⟩
  · rename_i ip hip
    obtain rfl := h.cached i ip hip
    split at hcall
    · rename_i hnlink
      obtain ⟨d', hitrunc, hstored, hd, hcontents⟩ := itrunc_stored h.stored i
      rw [hitrunc, ok_bind] at hcall
      cases hcall
      refine ⟨⟨hstored, untyped_update h.untyped hd fun _ => rfl, fun j jp hj => ?_,
        (h.forget i).typed⟩, ?_⟩
      · by_cases hji : j = i
        · subst hji
          simp only [update_self] at hj
          cases hj
        · simp only [update_of_ne hji] at hj
          rw [hd, update_of_ne hji]
          exact h.cached j jp hj
      · simp only [store_eq hd rfl, hcontents]
        exact .free i hnlink
    · cases hcall
      exact ⟨h.forget i, .put i⟩

/-- **One call** is one of the store. -/
theorem Good.step (h : fs.Good) {e : Call sb.ninodes} (hstep : fs.Step e o fs') :
    fs'.Good ∧ StoreStep (store sb fs.disk) e o (store sb fs'.disk) := by
  rw [Fs.Step, Fs.step] at hstep
  split at hstep
  · rename_i hfits
    split at hstep
    · rename_i r hperform
      obtain rfl := Option.some.inj hstep
      cases e with
      | create type => exact h.create hfits hperform
      | read i off n => exact h.read hfits hperform
      | write i off src => exact h.write hfits hperform
      | change i major minor nlink => exact h.change hfits hperform
      | put i => exact h.put hperform
    · cases hstep
  · cases hstep

theorem ilock_panics {fs : Fs sb} {p : Panic} (h : fs.ilock i = .error p) : p = .noType := by
  rw [Fs.ilock] at h
  split at h
  · cases h
  · simp only at h
    split at h
    · exact (Except.error.inj h).symm
    · cases h

/-- The panics of a call: neither is a free block freed, nor a block beyond the longest file
called for. -/
theorem Good.panics {fs : Fs sb} (h : fs.Good) {e : Call sb.ninodes} {p : Panic} (hfits : e.Fits)
    (hp : fs.perform e = .error p) : p = .outOfBlocks ∨ p = .noInodes ∨ p = .noType := by
  have hlocked : ∀ {i : Fin sb.ninodes} {f : Fs sb × Inode → Except Panic (Fs sb × Out)},
      (∀ fs' ip, fs.ilock i = .ok (fs', ip) → f (fs', ip) = .error p → p = .outOfBlocks) →
      (fs.ilock i >>= f) = .error p → p = .outOfBlocks ∨ p = .noInodes ∨ p = .noType := by
    intro i f hf hbind
    cases hlock : fs.ilock i with
    | error q =>
      rw [hlock, error_bind] at hbind
      exact Or.inr (Or.inr ((Except.error.inj hbind).symm.trans (ilock_panics hlock)))
    | ok r =>
      rw [hlock, ok_bind] at hbind
      exact Or.inl (hf r.1 r.2 hlock hbind)
  cases e with
  | create type =>
    rw [perform] at hp
    cases halloc : ialloc sb fs.disk type with
    | error q =>
      rw [halloc, error_bind] at hp
      obtain rfl := Except.error.inj hp
      rw [ialloc] at halloc
      split at halloc
      · cases halloc
      · exact Or.inr (Or.inl (Except.error.inj halloc).symm)
    | ok r =>
      rw [halloc] at hp
      cases hp
  | read i off n =>
    refine hlocked (fun fs' ip hlock hrest => ?_) hp
    obtain ⟨hgood, hdisk, rfl, -⟩ := h.ilock hlock
    simp only at hrest
    split at hrest
    · cases hrest
    · rw [← hdisk, readi_eq hgood.stored hfits.1 hfits.2] at hrest
      cases hrest
  | write i off src =>
    refine hlocked (fun fs' ip hlock hrest => ?_) hp
    simp only at hrest
    split at hrest
    · cases hrest
    · cases hwrite : writei sb fs'.disk i ip off src with
      | error q =>
        rw [hwrite, error_bind] at hrest
        exact (Except.error.inj hrest).symm.trans (writei_panics hfits.1 hfits.2 hwrite)
      | ok r =>
        rw [hwrite] at hrest
        cases hrest
  | change i major minor nlink =>
    refine hlocked (fun fs' ip hlock hrest => ?_) hp
    cases hrest
  | put i =>
    rw [perform, iput] at hp
    split at hp
    · cases hp
    · rename_i ip hip
      obtain rfl := h.cached i ip hip
      split at hp
      · obtain ⟨d', hitrunc, -⟩ := itrunc_stored h.stored i
        rw [hitrunc] at hp
        cases hp
      · cases hp

theorem run_good {tr : List (Call sb.ninodes × Out)} (hrun : Run Fs.Step fs tr fs')
    (h : fs.Good) : fs'.Good :=
  hrun.invariant (fun _ _ _ _ hgood hstep => (hgood.step hstep).1) h

/-- **Two panics of `fs.c` that never occur**, after any run: no free block is freed, and `bmap` is
not called for a block beyond the longest file. -/
theorem run_panics {fs fs' : Fs sb} {tr : List (Call sb.ninodes × Out)} {e : Call sb.ninodes}
    {p : Panic} (hrun : Run Fs.Step fs tr fs') (h : fs.Good) (hfits : e.Fits)
    (hp : fs'.perform e = .error p) : p ≠ .freeingFreeBlock ∧ p ≠ .outOfRange := by
  rcases (run_good hrun h).panics hfits hp with rfl | rfl | rfl
  · exact ⟨nofun, nofun⟩
  · exact ⟨nofun, nofun⟩
  · exact ⟨nofun, nofun⟩

/-! ## A small disk -/

/-- The disk when no file has a block. -/
theorem good_of_empty (hused : ∀ b, used sb d b ↔ b < sb.nmeta)
    (haddrs : ∀ j : Fin sb.ninodes, (dinode sb d j).addrs = fun _ => 0)
    (hsize : ∀ j : Fin sb.ninodes, (dinode sb d j).size = 0) :
    Good (⟨d, fun _ => none⟩ : Fs sb) := by
  have hslot : ∀ (j : Fin sb.ninodes) (t : Slot), slotBlock d (dinode sb d j) t = 0 := by
    intro j t
    cases t with
    | inl k => exact congrFun (haddrs j) k
    | inr k => exact if_pos (congrFun (haddrs j) 12)
  have hnone : ∀ t, held d (fun j : Fin sb.ninodes => dinode sb d j) t = none := fun t =>
    held_eq_none.mpr (hslot t.1 t.2)
  refine ⟨⟨⟨fun s t b hs => ?_, fun s b hs => ?_, fun b => ?_⟩, fun j k _ => ?_, fun j => ?_,
    fun j => ?_⟩, fun j _ => hsize j, fun j ip hj => ?_, fun j ip hj => ?_⟩
  · rw [hnone] at hs
    cases hs
  · rw [hnone] at hs
    cases hs
  · rw [hused]
    refine ⟨Or.inl, fun h => h.resolve_right fun ⟨s, hs⟩ => ?_⟩
    rw [hnone] at hs
    cases hs
  · exact iff_of_false (fun h => h (hslot j _)) (by rw [hsize]; omega)
  · exact iff_of_false (fun h => h (hslot j (.inl 12))) (by rw [hsize]; omega)
  · rw [hsize]
    exact Nat.zero_le _
  · cases hj
  · cases hj

/-- Two inodes, and four blocks for data. -/
def smallDisk : Superblock where
  size := 8
  nblocks := 4
  ninodes := 2
  inodestart := 2
  bmapstart := 3
  inodes_fit := by decide
  bitmap_fits := by decide
  size_lt := by decide

/-- The inode of the first file. -/
def inodeOne : Fin smallDisk.ninodes := ⟨1, by decide⟩

/-- No inode has a type, and the four blocks in front of the data are marked. -/
def blankDisk : Fs smallDisk := ⟨fun b x => if b = 3 ∧ x = 0 then 15 else 0, fun _ => none⟩

theorem good_blankDisk : blankDisk.Good := by
  refine good_of_empty (fun b => ?_) (by decide) (by decide)
  by_cases hb : b < smallDisk.size
  · have hall : ∀ c < smallDisk.size, used smallDisk blankDisk.disk c ↔ c < smallDisk.nmeta := by
      simp only [used]
      decide
    exact hall b hb
  · have hlt : smallDisk.nmeta ≤ smallDisk.size := by decide
    exact iff_of_false (fun h => hb h.1) (by omega)

/-- A file is made, written, read and freed, and then it is read once more. -/
theorem run_panics_freed : ∃ tr fs p, Run Step blankDisk tr fs ∧
    tr.map Prod.snd = [.made 1, .done, .data [8, 9], .freed] ∧
    fs.perform (.read inodeOne 0 1) = .error p ∧ p ≠ .freeingFreeBlock ∧ p ≠ .outOfRange := by
  obtain ⟨tr, fs, hrun, hobs⟩ := Run.exists_of_play (f := step) (s := blankDisk)
    (l := [.create 2, .write inodeOne 0 [7, 8, 9], .read inodeOne 1 5, .put inodeOne])
    (fun r => (r.2.map Prod.snd, (r.1.perform (.read inodeOne 0 1)).isOk))
    (v := ([.made 1, .done, .data [8, 9], .freed], false)) (by decide +kernel)
  obtain ⟨hout, hpanics⟩ := Prod.mk.inj hobs
  cases hread : fs.perform (.read inodeOne 0 1) with
  | ok r =>
    rw [hread] at hpanics
    cases hpanics
  | error p =>
    exact ⟨tr, fs, p, hrun, hout, hread, run_panics hrun good_blankDisk (by decide) hread⟩

end Fs

end Files
end Xv6
end SystemsProjects

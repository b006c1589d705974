import Mathlib.Data.List.AList
import Xv6.Fs.File

/-!
# The inode table

The table of inodes in use has an entry for every inode that something refers to, with the
number of references and, once the inode has been locked, a copy of it.  The functions take
the number of an inode where the kernel has a pointer to its entry.  Since there is one
process, `iunlock` does nothing, and is left out.

A file system is sound when it is consistent, no file has a hole, and the copies in the
table are what the disk has.  The functions keep it sound whatever they return.
-/

namespace Xv6

open Stop Superblock Function

/-- An entry of the inode table, `copy` being `none` as long as the inode is not `valid`. -/
structure InodeEntry where
  ref : ℕ
  copy : Option Inode

/-- The machine and the entries of the inode table with references. -/
structure FileSys where
  machine : Machine
  itable : AList (fun _ : ℕ => InodeEntry)

abbrev FsM := EStateM Fault FileSys

namespace FileSys

def setMachine (s : FileSys) (m : Machine) : FileSys := { s with machine := m }

def setSlot (s : FileSys) (i : ℕ) (slot : InodeEntry) : FileSys :=
  { s with itable := s.itable.insert i slot }

def dropSlot (s : FileSys) (i : ℕ) : FileSys := { s with itable := s.itable.erase i }

/-- The copy of an inode in the table. -/
def copy (s : FileSys) (i : ℕ) : Option Inode := (s.itable.lookup i).bind InodeEntry.copy

variable (s : FileSys)

theorem setSlot_copy (i : ℕ) (slot : InodeEntry) :
  (s.setSlot i slot).copy = update s.copy i slot.copy
  := by
  funext j
  unfold copy setSlot
  by_cases hj : j = i
  · subst hj
    rw [AList.lookup_insert, update_self, Option.bind_some]
  · rw [AList.lookup_insert_ne hj, update_of_ne hj]

theorem dropSlot_copy (i : ℕ) : (s.dropSlot i).copy = update s.copy i none := by
  funext j
  unfold copy dropSlot
  by_cases hj : j = i
  · subst hj
    rw [AList.lookup_erase, update_self, Option.bind_none]
  · rw [AList.lookup_erase_ne hj, update_of_ne hj]

end FileSys

/-! ### The functions -/

section Functions

variable {α : Type}

/-- A function that does not use the inode table. -/
def onDisk (x : Kernel α) : FsM α := fun s =>
  match x s.machine with
  | .ok a m => .ok a (s.setMachine m)
  | .error e m => .error e (s.setMachine m)

/-- `iget`: refer to an inode, in the entry it has or in a new one. -/
def iget (i : ℕ) : FsM Unit := do
  let s ← get
  match s.itable.lookup i with
  | some slot => set (s.setSlot i { slot with ref := slot.ref + 1 })
  | none =>
    if s.itable.entries.length < NINODE then set (s.setSlot i { ref := 1, copy := none })
    else throw (.panic "iget: no inodes")

/-- `ilock`: read the inode from the disk if that has not been done. -/
def ilock (sb : Superblock) (i : ℕ) : FsM Unit := do
  let s ← get
  match s.itable.lookup i with
  | some { ref, copy := none } =>
    let data ← onDisk (bread (sb.iblock i))
    onDisk (brelse (sb.iblock i))
    modify (·.setSlot i { ref, copy := some (Inode.load data i) })
    if (Inode.load data i).type = 0 then throw (.panic "ilock: no type")
  | some _ => return ()
  | none => throw (.panic "ilock")

/-- Call a function with an inode that is locked. -/
def withInode (i : ℕ) (f : Inode → Kernel (α × Inode)) : FsM α := do
  let s ← get
  match s.itable.lookup i with
  | some { ref, copy := some ip } =>
    let (a, ip) ← onDisk (f ip)
    modify (·.setSlot i { ref, copy := some ip })
    return a
  | _ => throw (.panic "ilock")

/-- `iput`: drop a reference.  With the last one, an inode without links is freed. -/
def iput (sb : Superblock) (i : ℕ) : FsM Unit := do
  let s ← get
  match s.itable.lookup i with
  | some { ref, copy } =>
    match copy with
    | some ip =>
      if ref = 1 ∧ ip.nlink = 0 then
        let ip ← onDisk (itrunc sb ip)
        onDisk (iupdate sb (ip.setType 0))
    | none => pure ()
    if ref = 1 then modify (·.dropSlot i) else modify (·.setSlot i { ref := ref - 1, copy })
  -- nothing refers to the inode
  | none => return ()

/-- The inode `ialloc` writes to the disk. -/
def Inode.fresh (inum type : ℕ) : Inode where
  inum
  type := type % 2 ^ 16
  major := 0
  minor := 0
  nlink := 0
  size := 0
  addrs := fun _ => 0

/-- The loop of `ialloc` over the inode numbers. -/
def iallocFrom (sb : Superblock) (type : ℕ) : ℕ → ℕ → Kernel (Option ℕ)
  | 0, _ => return none
  | fuel + 1, inum => do
    if inum < sb.ninodes then
      let data ← bread (sb.iblock inum)
      if (Inode.load data inum).type = 0 then
        fill (sb.iblock inum) ((Inode.fresh inum type).store data)
        logWrite (sb.iblock inum)
        brelse (sb.iblock inum)
        return some inum
      else
        brelse (sb.iblock inum)
        iallocFrom sb type fuel (inum + 1)
    else return none

/-- `ialloc`: mark an inode as allocated, and refer to it. -/
def ialloc (sb : Superblock) (type : ℕ) : FsM (Option ℕ) := do
  match ← onDisk (iallocFrom sb type sb.ninodes 1) with
  | some inum => do
    iget inum
    return some inum
  | none => return none

end Functions

/-! ### Soundness -/

/-- The inodes on the disk. -/
abbrev FileSys.inodes (sb : Superblock) (s : FileSys) : ℕ → Inode := sb.inode s.machine.obs.view

/-- The file system is consistent, without holes, and the copies are up to date. -/
structure Sound (sb : Superblock) (s : FileSys) : Prop where
  consistent : Consistent sb s.machine.obs (s.inodes sb)
  noHole : ∀ i, sb.Live (s.inodes sb) i → NoHole sb s.machine.obs.view (s.inodes sb) i
  copies : ∀ i ip, s.copy i = some ip → sb.Live (s.inodes sb) i ∧ ip = s.inodes sb i

/-- The program keeps the file system sound, and frees no free block. -/
abbrev Safe {α : Type} (sb : Superblock) (x : FsM α) : Prop :=
  Preserves (Sound sb) (fun e => e ≠ .panic "freeing free block") x

theorem benign_ne {σ : Type} :
  Benign (fun (e : Fault) (_ : σ) => e ≠ .panic "freeing free block")
  := fun _ _ he => he

theorem wp_onDisk {α : Type} {x : Kernel α} {Q : α → FileSys → Prop} {C : Fault → FileSys → Prop}
    {s : FileSys} :
  wp (onDisk x) Q C s
    ↔ wp x (fun a m => Q a (s.setMachine m)) (fun e m => C e (s.setMachine m)) s.machine
  := by
  unfold wp onDisk
  cases x s.machine <;> rfl

section Sound

variable {sb : Superblock} {s : FileSys} {i : ℕ}

/-- What a function that changes one inode must leave for the file system to be sound. -/
theorem Sound.saved (h : Sound sb s) (s' : FileSys) {f' : ℕ → Inode}
    (hsaved : Saved sb i s.machine.obs (s.inodes sb) s'.machine.obs f') (hi : i < sb.ninodes)
    (hno : sb.Live f' i → NoHole sb s'.machine.obs.view f' i)
    (hother : ∀ j ip, j ≠ i → s'.copy j = some ip → s.copy j = some ip)
    (hcopy : ∀ ip, s'.copy i = some ip → ip.type ≠ 0 ∧ ip = f' i) :
  Sound sb s'
  := by
  have hf : ∀ j < sb.ninodes, s'.inodes sb j = f' j := by
    intro j hj
    apply (hsaved.inode j hj).trans
    by_cases hji : j = i
    · subst hji
      rw [update_self]
    · rw [update_of_ne hji, hsaved.other j hji]
  obtain ⟨hcons, hcell⟩ := hsaved.consistent.congr_inodes hf
  refine ⟨hcons, ?_, ?_⟩
  · intro j hj
    have hsame := hf j hj.1
    unfold NoHole
    rw [hcell, hsame]
    by_cases hji : j = i
    · subst hji
      apply hno
      rwa [Live, ← hsame]
    · have hold := hsaved.other j hji
      intro bn hbn hbelow
      rw [hsaved.frame _ (by rwa [blockCell_inum])]
      rw [hold] at hbelow
      apply h.noHole j _ bn hbn hbelow
      rwa [Live, ← hold, ← hsame]
  · intro j ip hip
    by_cases hji : j = i
    · subst hji
      obtain ⟨htype, rfl⟩ := hcopy ip hip
      have hsame := hf j hi
      exact ⟨⟨hi, by rwa [hsame]⟩, hsame.symm⟩
    · obtain ⟨hlive, heq⟩ := h.copies j ip (hother j ip hji hip)
      have hsame : s'.inodes sb j = s.inodes sb j := (hf j hlive.1).trans (hsaved.other j hji)
      rw [hsame]
      refine ⟨⟨hlive.1, ?_⟩, heq⟩
      rw [hsame]
      exact hlive.2

/-- The table loses copies, or nothing at all. -/
theorem Sound.of_copies (h : Sound sb s) (s' : FileSys) (hm : s'.machine.obs = s.machine.obs)
    (hcopy : ∀ j ip, s'.copy j = some ip →
      s.copy j = some ip ∨ sb.Live (s.inodes sb) j ∧ ip = s.inodes sb j) :
  Sound sb s'
  := by
  have hinodes : s'.inodes sb = s.inodes sb := by
    unfold FileSys.inodes
    rw [hm]
  refine ⟨?_, ?_, ?_⟩
  · rw [hinodes, hm]
    exact h.consistent
  · rw [hinodes, hm]
    exact h.noHole
  · intro j ip hip
    rw [hinodes]
    exact (hcopy j ip hip).elim (h.copies j ip) id

/-- The inodes and the cells are what they were, and so is the table. -/
theorem Sound.unmoved (h : Sound sb s) {m : Machine}
    (hm : Unmoved sb s.machine.obs (s.inodes sb) m.obs) :
  Sound sb (s.setMachine m)
  := by
  obtain ⟨hcons, hcell⟩ := hm.consistent.congr_inodes hm.inode
  have hsame : ∀ j, sb.Live (sb.inode m.obs.view) j ↔ sb.Live (s.inodes sb) j := by
    intro j
    apply and_congr_right
    intro hj
    rw [hm.inode j hj]
  refine ⟨hcons, ?_, ?_⟩
  · intro j hj bn hbn hbelow
    have hlive := (hsame j).mp hj
    have hbelow : bn * BSIZE < (sb.inode m.obs.view j).size := hbelow
    rw [hm.inode j hj.1] at hbelow
    change sb.cell m.obs.view (sb.inode m.obs.view) (blockCell j bn) ≠ 0
    rw [hcell, hm.cells]
    exact h.noHole j hlive bn hbn hbelow
  · intro j ip hip
    obtain ⟨hlive, rfl⟩ := h.copies j ip hip
    exact ⟨(hsame j).mpr hlive, (hm.inode j hlive.1).symm⟩

theorem copy_of_lookup {ref : ℕ} {copy : Option Inode} (h : s.itable.lookup i = some ⟨ref, copy⟩) :
  s.copy i = copy
  := by
  rw [FileSys.copy, h]
  rfl

/-- An entry is replaced by one with the same copy, or without one. -/
theorem Sound.setSlot (h : Sound sb s) {slot : InodeEntry} (hcopy : slot.copy = s.copy i ∨ slot.copy = none) :
  Sound sb (s.setSlot i slot)
  := by
  apply h.of_copies (s.setSlot i slot) rfl
  intro j ip hip
  left
  rw [FileSys.setSlot_copy] at hip
  by_cases hj : j = i
  · subst hj
    rw [update_self] at hip
    rcases hcopy with hcopy | hcopy
    · rwa [← hcopy]
    · rw [hcopy] at hip
      cases hip
  · rwa [update_of_ne hj] at hip

theorem Sound.dropSlot (h : Sound sb s) : Sound sb (s.dropSlot i) := by
  apply h.of_copies (s.dropSlot i) rfl
  intro j ip hip
  left
  rw [FileSys.dropSlot_copy] at hip
  by_cases hj : j = i
  · subst hj
    rw [update_self] at hip
    cases hip
  · rwa [update_of_ne hj] at hip

end Sound

section Safe

variable {α : Type} {sb : Superblock} {i type : ℕ} {f : ℕ → Inode}

theorem safe_iget : Safe sb (iget i) := by
  intro s hs
  simp only [iget, wp_bind, wp_get]
  split
  · rename_i slot hslot
    apply hs.setSlot
    left
    exact (copy_of_lookup hslot).symm
  · split_ifs
    · exact hs.setSlot (Or.inr rfl)
    · rw [wp_throw]
      decide

theorem safe_ilock (hi : i < sb.ninodes) : Safe sb (ilock sb i) := by
  intro s hs
  simp only [ilock, wp_bind, wp_get]
  split
  · rename_i ref hslot
    rw [wp_bind, wp_onDisk]
    apply wp_bread_hold rfl
    intro m₁ h₁
    rw [wp_bind, wp_onDisk]
    apply wp_brelse_hold h₁ (hs.consistent.settled_iblock hi)
    intro m₂ h₂
    simp only [wp_bind, wp_modify]
    split_ifs with htype
    · rw [wp_throw]
      decide
    · apply hs.of_copies _ h₂
      intro j ip hip
      rw [FileSys.setSlot_copy] at hip
      by_cases hj : j = i
      · subst hj
        rw [update_self] at hip
        cases hip
        exact Or.inr ⟨⟨hi, htype⟩, rfl⟩
      · rw [update_of_ne hj] at hip
        exact Or.inl hip
  · exact hs
  · rw [wp_throw]
    decide

/-- A function that changes at most the inode it is given. -/
theorem safe_withInode {f : Inode → Kernel (α × Inode)}
    (h : ∀ (m : Machine), Consistent sb m.obs (sb.inode m.obs.view) →
      sb.Live (sb.inode m.obs.view) i → NoHole sb m.obs.view (sb.inode m.obs.view) i →
      wp (f (sb.inode m.obs.view i))
        (fun r m' => ∃ f', Saved sb i m.obs (sb.inode m.obs.view) m'.obs f' ∧ r.2 = f' i
          ∧ (f' i).type ≠ 0 ∧ NoHole sb m'.obs.view f' i)
        (fun e _ => e ≠ .panic "freeing free block") m) :
  Safe sb (withInode i f)
  := by
  intro s hs
  simp only [withInode, wp_bind, wp_get]
  split
  · rename_i ref ip hslot
    obtain ⟨hlive, rfl⟩ := hs.copies i ip (copy_of_lookup hslot)
    rw [wp_bind, wp_onDisk]
    apply wp_mono (h s.machine hs.consistent hlive (hs.noHole i hlive))
    · rintro ⟨a, ip⟩ m' ⟨f', hsaved, rfl, htype, hno⟩
      simp only [wp_bind, wp_modify, wp_pure]
      apply hs.saved ((s.setMachine m').setSlot i _) hsaved hlive.1 (fun _ => hno)
      · intro j ip hj hip
        rwa [FileSys.setSlot_copy, update_of_ne hj] at hip
      · intro ip hip
        rw [FileSys.setSlot_copy, update_self] at hip
        cases hip
        exact ⟨htype, rfl⟩
    · intro e _ he
      exact he
  · rw [wp_throw]
    decide

theorem Inode.fits_fresh (inum type : ℕ) : (Inode.fresh inum type).Fits := by
  refine ⟨Nat.mod_lt _ (by decide), ?_, ?_, ?_, ?_, fun _ => ?_⟩
  all_goals exact Nat.two_pow_pos _

/-- A file without blocks has no hole. -/
theorem noHole_of_size {view : ℕ → Block} (h : (f i).size = 0) : NoHole sb view f i := by
  intro bn _ hbelow
  rw [h] at hbelow
  exact absurd hbelow (Nat.not_lt_zero _)

variable {C : Fault → Machine → Prop} {Q : Option ℕ → Machine → Prop} {o : Obs} {m : Machine}

/-- `ialloc` finds a free inode and logs its block, or there is none. -/
theorem wp_iallocFrom_log {type fuel inum : ℕ} (hC : Tolerates C) (hm : m.obs = o) (hp : o.Pinned)
    (hs : ∀ i < sb.ninodes, o.Settled (sb.iblock i)) (hnone : ∀ m', m'.obs = o → Q none m')
    (h : ∀ i m', inum ≤ i → i < sb.ninodes → ¬ sb.Live (sb.inode o.view) i →
    m'.obs = o.log (sb.iblock i) ((Inode.fresh i type).store (o.view (sb.iblock i))) →
    m'.obs.lh.length ≤ LOGBLOCKS → Q (some i) m') :
  wp (iallocFrom sb type fuel inum) Q C m
  := by
  induction fuel generalizing inum m with
  | zero => exact hnone m hm
  | succ fuel ih =>
    unfold iallocFrom
    split_ifs with hlt
    · rw [wp_bind]
      apply wp_bread_hold hm
      intro m₁ h₁
      split_ifs with htype
      · simp only [wp_bind]
        apply wp_log_block hC h₁ hp
        intro m₂ h₂ hlen
        exact h inum m₂ (Nat.le_refl _) hlt (fun hlive => hlive.2 htype) h₂ hlen
      · rw [wp_bind]
        apply wp_brelse_hold h₁ (hs inum hlt)
        intro m₂ h₂
        apply ih h₂
        intro i m' hi
        exact h i m' (Nat.le_of_succ_le hi)
    · exact hnone m hm

/-- A new inode is allocated. -/
theorem Consistent.saved_fresh (hcons : Consistent sb o f)
    (hi : i < sb.ninodes) (hfree : ¬ sb.Live f i)
    (hlen : (o.log (sb.iblock i) ((Inode.fresh i type).store (o.view (sb.iblock i)))).lh.length ≤ LOGBLOCKS) :
  Saved sb i o f (o.log (sb.iblock i) ((Inode.fresh i type).store (o.view (sb.iblock i))))
      (update f i (Inode.fresh i type))
    ∧ sb.cell (o.log (sb.iblock i) ((Inode.fresh i type).store (o.view (sb.iblock i)))).view
        (update f i (Inode.fresh i type)) = sb.cell o.view f
  := by
  obtain ⟨hset, hcell⟩ := hcons.setEmpty (i := i) (Inode.fits_fresh i type) rfl
    (fun hlive => absurd hlive hfree) (fun _ => rfl)
  exact hset.saved hcell hi hlen

theorem wp_iallocFrom {type fuel inum : ℕ} (hC : Tolerates C) (hm : m.obs = o)
    (hcons : Consistent sb o (sb.inode o.view)) (hnone : ∀ m', m'.obs = o → Q none m')
    (h : ∀ i m', i < sb.ninodes → Saved sb i o (sb.inode o.view) m'.obs
    (update (sb.inode o.view) i (Inode.fresh i type)) → ¬ sb.Live (sb.inode o.view) i →
    Q (some i) m') :
  wp (iallocFrom sb type fuel inum) Q C m
  := by
  apply wp_iallocFrom_log hC hm hcons.pinned (fun i hi => hcons.settled_iblock hi) hnone
  intro i m' _ hi hfree hm' hlen
  apply h i m' hi _ hfree
  rw [hm'] at hlen ⊢
  exact (hcons.saved_fresh hi hfree hlen).1

/-- `ialloc` keeps the file system sound and returns the number of an inode. -/
theorem wp_ialloc {s : FileSys} (hs : Sound sb s) :
  wp (ialloc sb type) (fun r s' => Sound sb s' ∧ ∀ inum, r = some inum → inum < sb.ninodes)
    (fun e _ => e ≠ .panic "freeing free block") s
  := by
  unfold ialloc
  rw [wp_bind, wp_onDisk]
  apply wp_iallocFrom benign_ne.tolerates rfl hs.consistent
  · intro m' hm'
    refine ⟨hs.of_copies _ hm' (fun _ _ => Or.inl), ?_⟩
    rintro _ ⟨⟩
  · intro i m' hi hsaved hfree
    have hs' : Sound sb (s.setMachine m') := by
      apply hs.saved (s.setMachine m') hsaved hi
      · intro _
        apply noHole_of_size
        rw [update_self]
        rfl
      · exact fun _ _ _ hip => hip
      · intro ip hip
        exact absurd (hs.copies i ip hip).1 hfree
    rw [wp_bind]
    apply wp_mono (safe_iget _ hs')
    · intro _ s'' hs''
      refine ⟨hs'', ?_⟩
      rintro _ ⟨⟩
      exact hi
    · intro _ _ he
      exact he

theorem safe_ialloc : Safe sb (ialloc sb type) := by
  intro s hs
  apply wp_mono (wp_ialloc hs)
  · intro _ _ h
    exact h.1
  · intro _ _ he
    exact he

/-- The last reference to an inode without links: the inode is freed. -/
theorem wp_ifree
    {Q : Unit → Machine → Prop} (hC : Tolerates C) (hm : m.obs = o) (hcons : Consistent sb o f)
    (hi : sb.Live f i) (h : ∀ m' f', Saved sb i o f m'.obs f' → (f' i).type = 0 → Q () m') :
  wp (do let ip ← itrunc sb (f i); iupdate sb (ip.setType 0)) Q C m
  := by
  rw [wp_bind]
  apply wp_itrunc hC hm hcons hi
  intro m₁ hsaved₁
  have hself : update f i (f i).truncated i = (f i).truncated := by rw [update_self]
  have hwf := hsaved₁.consistent.wf i hi.1
  rw [hself] at hwf
  obtain ⟨hset, hcell⟩ := hsaved₁.consistent.setEmpty (hwf.1.setType (n := 0) (by decide)) hwf.2
    (fun _ k => by rw [hself]; rfl) (fun _ => rfl)
  apply wp_iupdate hC rfl hsaved₁.consistent.pinned
  intro m₂ h₂ hlen
  have hinum : ((f i).truncated.setType 0).inum = i := hwf.2
  rw [hinum] at h₂
  rw [h₂] at hlen
  have hsaved₂ := (hset.saved hcell hi.1 hlen).1
  rw [← h₂] at hsaved₂
  apply h m₂ _ (hsaved₁.trans hsaved₂)
  rw [update_self]
  rfl

theorem safe_iput : Safe sb (iput sb i) := by
  intro s hs
  simp only [iput, wp_bind, wp_get]
  split
  · rename_i ref copy hslot
    have hcopy : s.copy i = copy := copy_of_lookup hslot
    have hdrop : wp (if ref = 1 then modify (·.dropSlot i)
        else modify (·.setSlot i { ref := ref - 1, copy }) : FsM Unit)
        (fun _ s' => Sound sb s') (fun e _ => e ≠ .panic "freeing free block") s := by
      split_ifs
      · exact hs.dropSlot
      · exact hs.setSlot (Or.inl hcopy.symm)
    cases copy with
    | none => simpa only [wp_bind, wp_pure] using hdrop
    | some ip =>
      by_cases hlast : ref = 1 ∧ ip.nlink = 0
      · obtain ⟨hlive, rfl⟩ := hs.copies i ip hcopy
        simp only [hlast, and_self, if_true, wp_bind, wp_onDisk, wp_modify]
        have hfree := wp_ifree (Q := fun _ m' => Sound sb ((s.setMachine m').dropSlot i))
          benign_ne.tolerates rfl hs.consistent hlive
        rw [wp_bind] at hfree
        apply hfree
        intro m' f' hsaved htype
        apply hs.saved ((s.setMachine m').dropSlot i) hsaved hlive.1
        · exact fun hlive' => absurd htype hlive'.2
        · intro j ip hj hip
          rwa [FileSys.dropSlot_copy, update_of_ne hj] at hip
        · intro ip hip
          rw [FileSys.dropSlot_copy, update_self] at hip
          cases hip
      · simpa only [hlast, if_false, wp_bind, wp_pure] using hdrop
  · exact hs

end Safe

end Xv6

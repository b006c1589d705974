import Xv6.Fs.System

/-!
# Removing directory entries

`sys_unlink` clears an entry of a directory and drops a link of the inode it names, unless that
is a directory with entries.  Together with the reading functions it makes up more calls of the
file system, and they too keep it sound.
-/

namespace Xv6

open Stop Superblock

/-! ### The functions -/

/-- `nlink` is a `short`. -/
def Inode.links (ip : Inode) : ℤ := if ip.nlink < 32768 then ip.nlink else ip.nlink - 65536

/-- The loop of `isdirempty`, from an offset on. -/
def isdiremptyFrom (read : ℕ → FsM (ℤ × List UInt8)) (size : ℕ) : ℕ → ℕ → FsM Bool
  | 0, _ => return true
  | fuel + 1, off => do
    if off < size then
      let (r, de) ← read off
      if r ≠ DIRENT then throw (.panic "isdirempty: readi")
      else if direntInum de ≠ 0 then return false
      else isdiremptyFrom read size fuel (off + DIRENT)
    else return true

/-- `isdirempty`: the directory has no entries but `.` and `..`. -/
def isdirempty (sb : Superblock) (d : ℕ) : FsM Bool := do
  let dp ← inodeOf d
  isdiremptyFrom (readDirent sb d) dp.size dp.size (2 * DIRENT)

/-- `sys_unlink` behind the label `bad`. -/
def unlinkBad (sb : Superblock) (d : ℕ) : FsM ℤ := do
  iput sb d
  return -1

/-- The test of `sys_unlink` for a directory with entries. -/
def nonempty (sb : Superblock) (inum type : ℕ) : FsM Bool := do
  if type = T_DIR then
    let empty ← isdirempty sb inum
    return !empty
  else return false

/-- `sys_unlink`, once the inode has been found at offset `off` of the directory and locked. -/
def unlinkFound (sb : Superblock) (d inum off : ℕ) : FsM ℤ := do
  let ip ← inodeOf inum
  if ip.links < 1 then throw (.panic "unlink: nlink < 1")
  else
    let full ← nonempty sb inum ip.type
    if full then
      iput sb inum
      unlinkBad sb d
    else
      let r ← withInode d (fun dp => writei sb dp (.kernel fun _ => 0) 0 off DIRENT)
      if r ≠ DIRENT then throw (.panic "unlink: writei")
      else
        if ip.type = T_DIR then updateInode sb d (fun dp => dp.setNlink (dp.nlink + 65535))
        iput sb d
        updateInode sb inum (fun ip => ip.setNlink (ip.nlink + 65535))
        iput sb inum
        return 0

/-- `sys_unlink`, once the directory has been found and locked. -/
def sysUnlink (sb : Superblock) (d : ℕ) (name : CString) : FsM ℤ := do
  if namecmp name (CString.ofList [46]) = 0 ∨ namecmp name (CString.ofList [46, 46]) = 0 then
    unlinkBad sb d
  else
    match ← dirlookup sb d name with
    | none => unlinkBad sb d
    | some (inum, off) => do
      ilock sb inum
      unlinkFound sb d inum off

/-! ### Soundness -/

section Safe

variable {sb : Superblock} {d : ℕ}

theorem safe_isdiremptyFrom {size fuel off : ℕ} : Safe sb (isdiremptyFrom (readDirent sb d) size fuel off) := by
  induction fuel generalizing off with
  | zero => exact preserves_pure _
  | succ fuel ih =>
    unfold isdiremptyFrom
    split_ifs
    · apply Preserves.bind safe_readDirent
      rintro ⟨r, de⟩
      dsimp only
      split_ifs
      · exact preserves_throw (by decide)
      · exact preserves_pure _
      · exact ih
    · exact preserves_pure _

theorem safe_isdirempty : Safe sb (isdirempty sb d) := by
  apply Preserves.bind safe_inodeOf
  intro dp
  exact safe_isdiremptyFrom

theorem safe_nonempty {inum type : ℕ} : Safe sb (nonempty sb inum type) := by
  unfold nonempty
  split_ifs
  · exact Preserves.ret safe_isdirempty
  · exact preserves_pure _

theorem safe_unlinkBad : Safe sb (unlinkBad sb d) := Preserves.ret safe_iput

theorem safe_unlinkFound {inum off : ℕ} : Safe sb (unlinkFound sb d inum off) := by
  have hclear : Safe sb (withInode d (fun dp => writei sb dp (.kernel fun _ => 0) 0 off DIRENT)) :=
    safe_writei (by decide)
  unfold unlinkFound
  apply Preserves.bind safe_inodeOf
  intro ip
  by_cases hlinks : ip.links < 1
  · rw [if_pos hlinks]
    exact preserves_throw (by decide)
  · rw [if_neg hlinks]
    apply Preserves.bind safe_nonempty
    intro full
    have hdrop : Safe sb (do
        iput sb d
        updateInode sb inum (fun ip => ip.setNlink (ip.nlink + 65535))
        iput sb inum
        return (0 : ℤ)) := by
      apply Preserves.bind safe_iput
      intro _
      apply Preserves.bind safe_setNlink
      intro _
      exact Preserves.ret safe_iput
    by_cases hfull : full = true
    · rw [if_pos hfull]
      exact Preserves.bind safe_iput (fun _ => safe_unlinkBad)
    · rw [if_neg hfull]
      apply hclear.bind
      intro r
      dsimp only
      split_ifs
      · exact preserves_throw (by decide)
      · exact Preserves.bind safe_setNlink (fun _ => hdrop)
      · exact hdrop

/-- The entry that is found names an inode of the file system. -/
def FindsInode (sb : Superblock) (d : ℕ) (name : CString) (s : FileSys) : Prop :=
  match dirlookup sb d name s with
  | .ok (some (inum, _)) _ => inum < sb.ninodes
  | _ => True

instance (sb : Superblock) (d : ℕ) (name : CString) (s : FileSys) : Decidable (FindsInode sb d name s) := by
  unfold FindsInode
  split <;> infer_instance

theorem safe_sysUnlink {name : CString} {s : FileSys} (hs : Sound sb s) (hfinds : FindsInode sb d name s) :
  wp (sysUnlink sb d name) (fun _ s' => Sound sb s') (fun e _ => e ≠ .panic "freeing free block") s
  := by
  unfold sysUnlink
  split_ifs
  · exact safe_unlinkBad s hs
  · rw [wp_bind]
    have hlookup := (safe_dirlookup : Safe sb (dirlookup sb d name)) s hs
    unfold FindsInode at hfinds
    unfold wp at hlookup ⊢
    cases hrun : dirlookup sb d name s with
    | error e s' =>
      rw [hrun] at hlookup
      exact hlookup
    | ok r s' =>
      rw [hrun] at hlookup hfinds
      obtain _ | ⟨inum, off⟩ := r
      · exact safe_unlinkBad s' hlookup
      · exact (safe_ilock hfinds).bind (fun _ => safe_unlinkFound) s' hlookup

end Safe

/-! ### Calls -/

/-- The calls of the file system, with those that read and those that remove entries. -/
inductive FsCall where
  | basic (op : FsOp)
  | readi (i : ℕ) (dst : ℕ → ℕ → Bool) (off n : ℕ)
  | dirlookup (d : ℕ) (name : CString)
  | isdirempty (d : ℕ)
  | unlink (d : ℕ) (name : CString)

namespace FsCall

def Enabled (sb : Superblock) (s : FileSys) : FsCall → Prop
  | .basic op => op.Enabled sb s
  | .unlink d name => FindsInode sb d name s
  | _ => True

instance (sb : Superblock) (s : FileSys) : (c : FsCall) → Decidable (c.Enabled sb s)
  | .basic op => inferInstanceAs (Decidable (op.Enabled sb s))
  | .unlink d name => inferInstanceAs (Decidable (FindsInode sb d name s))
  | .readi .. => .isTrue trivial
  | .dirlookup .. => .isTrue trivial
  | .isdirempty .. => .isTrue trivial

def run (sb : Superblock) : FsCall → FsM Unit
  | .basic op => op.run sb
  | .readi i dst off n => do
    let _ ← withInode i fun ip => do
      let (r, out, ip) ← Xv6.readi sb ip dst off n
      return ((r, out), ip)
    return ()
  | .dirlookup d name => do
    let _ ← Xv6.dirlookup sb d name
    return ()
  | .isdirempty d => do
    let _ ← Xv6.isdirempty sb d
    return ()
  | .unlink d name => do
    let _ ← sysUnlink sb d name
    return ()

/-- Every call keeps the file system sound. -/
theorem safe_run {sb : Superblock} {s : FileSys} {c : FsCall} (hs : Sound sb s) (hc : c.Enabled sb s) :
  wp (c.run sb) (fun _ s' => Sound sb s') (fun e _ => e ≠ .panic "freeing free block") s
  := by
  cases c with
  | basic op => exact FsOp.safe_run hs hc
  | readi i dst off n => exact Preserves.ret safe_readi s hs
  | dirlookup d name => exact Preserves.ret safe_dirlookup s hs
  | isdirempty d => exact Preserves.ret safe_isdirempty s hs
  | unlink d name =>
    unfold run
    rw [wp_bind]
    apply wp_mono (safe_sysUnlink hs hc)
    · intro _ s' hs'
      exact hs'
    · intro _ _ he
      exact he

end FsCall

/-- Every allocated inode has a block for each part of its file. -/
def HoleFree (sb : Superblock) (view : ℕ → Block) : Prop :=
  ∀ i, sb.Live (sb.inode view) i → NoHole sb view (sb.inode view) i

/-- The runs of the file system from images without holes. -/
def callSystem (sb : Superblock) : TransitionSystem FileSys FsCall where
  init s := ∃ disk start limit recycle, HoleFree sb disk ∧ s = FileSys.boot disk start limit recycle
  step s c :=
    if c.Enabled sb s then
      match c.run sb s with
      | .ok _ s' => some s'
      | .error _ _ => none
    else none

theorem sound_of_step {sb : Superblock} {s s' : FileSys} (hs : Sound sb s) {c : FsCall}
    (hstep : (callSystem sb).step s c = some s') :
  Sound sb s'
  := by
  dsimp only [callSystem] at hstep
  split_ifs at hstep with hc
  have hsafe := FsCall.safe_run hs hc
  unfold wp at hsafe
  cases hrun : c.run sb s with
  | ok r s₁ =>
    rw [hrun] at hstep hsafe
    cases hstep
    exact hsafe
  | error e s₁ =>
    rw [hrun] at hstep
    cases hstep

theorem sound_of_exec {sb : Superblock} {s s' : FileSys} (hs : Sound sb s) {calls : List FsCall}
    (hrun : (callSystem sb).exec s calls = some s') :
  Sound sb s'
  := by
  induction calls generalizing s with
  | nil =>
    cases hrun
    exact hs
  | cons c calls ih =>
    obtain ⟨s₁, hstep, hrest⟩ := TransitionSystem.exec_cons_iff.mp hrun
    exact ih (sound_of_step hs hstep) hrest

end Xv6

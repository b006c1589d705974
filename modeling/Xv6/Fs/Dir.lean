import Xv6.Fs.Table

/-!
# Directories

A directory is a file of entries of 16 bytes, a 16-bit inode number and a name; an entry
with the inode number `0` is free.  `dirlookup` and `dirlink` read and write entries, and
`create` makes a new inode and the entries for it.  Each of them is put together from
functions that keep the file system sound, and so keeps it sound, whatever the names are,
whatever is in the directory and wherever it fails.
-/

namespace Xv6

open Stop Superblock Function

/-! ### Names -/

/-- A string in the memory of the kernel, up to its first zero. -/
abbrev CString := ℕ → UInt8

def strncmp (p q : CString) : ℕ → ℤ
  | 0 => 0
  | n + 1 =>
    if p 0 ≠ 0 ∧ p 0 = q 0 then strncmp (fun k => p (k + 1)) (fun k => q (k + 1)) n
    else (p 0).toNat - (q 0).toNat

/-- The `n` bytes `strncpy` writes. -/
def strncpy (t : CString) : ℕ → List UInt8
  | 0 => []
  | n + 1 => if t 0 = 0 then List.replicate (n + 1) 0 else t 0 :: strncpy (fun k => t (k + 1)) n

def namecmp (s t : CString) : ℤ := strncmp s t DIRSIZ

/-- The string of the bytes in a list. -/
def CString.ofList (l : List UInt8) : CString := fun k => l.getD k 0

/-- `sizeof(struct dirent)`. -/
abbrev DIRENT : ℕ := 2 + DIRSIZ

/-- A `struct dirent`. -/
def dirent (name : CString) (inum : ℕ) : List UInt8 :=
  UInt8.ofNat (inum % 2 ^ 8) :: UInt8.ofNat (inum / 2 ^ 8 % 2 ^ 8) :: strncpy name DIRSIZ

/-- The field `inum` of a `struct dirent`. -/
def direntInum (de : List UInt8) : ℕ := (de.getD 0 0).toNat + 2 ^ 8 * (de.getD 1 0).toNat

/-- The field `name` of a `struct dirent`. -/
def direntName (de : List UInt8) : CString := CString.ofList (de.drop 2)

/-! ### The functions -/

namespace Inode

def setNlink (ip : Inode) (n : ℕ) : Inode := { ip with nlink := n % 2 ^ 16 }

def setDevice (ip : Inode) (major minor : ℕ) : Inode :=
  { ip with major := major % 2 ^ 16, minor := minor % 2 ^ 16 }

end Inode

/-- The fields of an inode that is locked. -/
def inodeOf (i : ℕ) : FsM Inode := withInode i (fun ip => return (ip, ip))

/-- Read an entry of a directory. -/
def readDirent (sb : Superblock) (d off : ℕ) : FsM (ℤ × List UInt8) :=
  withInode d fun dp => do
    let (r, de, dp) ← readi sb dp (fun _ _ => true) off DIRENT
    return ((r, de), dp)

/-- The loop of `dirlookup`, from an offset on. -/
def dirlookupFrom (sb : Superblock) (d size : ℕ) (name : CString) : ℕ → ℕ → FsM (Option (ℕ × ℕ))
  | 0, _ => return none
  | fuel + 1, off => do
    if off < size then
      let (r, de) ← readDirent sb d off
      if r ≠ DIRENT then throw (.panic "dirlookup read")
      else if direntInum de = 0 then dirlookupFrom sb d size name fuel (off + DIRENT)
      else if namecmp name (direntName de) = 0 then
        iget (direntInum de)
        return some (direntInum de, off)
      else dirlookupFrom sb d size name fuel (off + DIRENT)
    else return none

/-- `dirlookup`: look for an entry in a directory.  It returns the inode number, to which
there is a new reference, and the offset of the entry. -/
def dirlookup (sb : Superblock) (d : ℕ) (name : CString) : FsM (Option (ℕ × ℕ)) := do
  let dp ← inodeOf d
  if dp.type ≠ T_DIR then throw (.panic "dirlookup not DIR")
  else dirlookupFrom sb d dp.size name dp.size 0

/-- The loop of `dirlink` that looks for a free entry. -/
def freeDirent (sb : Superblock) (d size : ℕ) : ℕ → ℕ → FsM ℕ
  | 0, off => return off
  | fuel + 1, off => do
    if off < size then
      let (r, de) ← readDirent sb d off
      if r ≠ DIRENT then throw (.panic "dirlink read")
      else if direntInum de = 0 then return off
      else freeDirent sb d size fuel (off + DIRENT)
    else return off

/-- `dirlink`: write a new entry into a directory. -/
def dirlink (sb : Superblock) (d : ℕ) (name : CString) (inum : ℕ) : FsM ℤ := do
  match ← dirlookup sb d name with
  | some (found, _) => do
    iput sb found
    return -1
  | none => do
    let dp ← inodeOf d
    let off ← freeDirent sb d dp.size dp.size 0
    let de := CString.ofList (dirent name inum)
    let r ← withInode d (fun dp => writei sb dp (.kernel de) 0 off DIRENT)
    return if r ≠ DIRENT then -1 else 0

/-- Change an inode that is locked, and copy it to the disk. -/
def updateInode (sb : Superblock) (i : ℕ) (g : Inode → Inode) : FsM Unit :=
  withInode i fun ip => do
    iupdate sb (g ip)
    return ((), g ip)

/-- The entries `.` and `..`, if the new inode is a directory. -/
def linkDots (sb : Superblock) (d inum type : ℕ) : FsM Bool := do
  if type = T_DIR then
    let r ← dirlink sb inum (CString.ofList [46]) inum
    if r < 0 then return false
    else
      let r ← dirlink sb inum (CString.ofList [46, 46]) d
      return !decide (r < 0)
  else return true

/-- `create` behind the label `fail`. -/
def createFail (sb : Superblock) (d inum : ℕ) : FsM (Option ℕ) := do
  updateInode sb inum (·.setNlink 0)
  iput sb inum
  iput sb d
  return none

/-- `create`, once the name has not been found in the locked directory `d`. -/
def createNew (sb : Superblock) (d : ℕ) (name : CString) (type major minor : ℕ) :
    FsM (Option ℕ) := do
  match ← ialloc sb type with
  | none => do
    iput sb d
    return none
  | some inum => do
    ilock sb inum
    updateInode sb inum (fun ip => (ip.setDevice major minor).setNlink 1)
    let dots ← linkDots sb d inum type
    if dots = false then createFail sb d inum
    else
      let r ← dirlink sb d name inum
      if r < 0 then createFail sb d inum
      else
        if type = T_DIR then updateInode sb d (fun dp => dp.setNlink (dp.nlink + 1))
        iput sb d
        return some inum

/-! ### Soundness -/

section Safe

variable {sb : Superblock} {i d size fuel off inum : ℕ} {ip : Inode}

theorem safe_inodeOf : Safe sb (inodeOf i) := by
  apply safe_withInode
  intro m hcons hlive hno
  exact ⟨_, Saved.refl hcons, rfl, hlive.2, hno⟩

theorem safe_readi {dst : ℕ → ℕ → Bool} {off n : ℕ} :
  Safe sb (withInode i fun ip => do
    let (r, out, ip) ← readi sb ip dst off n
    return ((r, out), ip))
  := by
  apply safe_withInode
  intro m hcons hlive hno
  rw [wp_bind]
  apply wp_readi benign_ne.tolerates (Or.inr (fun _ => by decide)) rfl hcons hlive hno
  intro r de m' hunmoved
  have hsaved : Saved sb i m.obs (sb.inode m.obs.view) m'.obs (sb.inode m.obs.view) := by
    refine ⟨hunmoved.consistent, ?_, fun _ _ => rfl, ?_⟩
    · intro j hj
      rw [hunmoved.inode j hj, update_eq_self]
    · intro q _
      rw [hunmoved.cells]
  exact ⟨_, hsaved, rfl, hlive.2, hunmoved.noHole hno⟩

theorem safe_readDirent {off : ℕ} : Safe sb (readDirent sb d off) := safe_readi

theorem safe_writei {s : Source} {src off n : ℕ} (hn : n < 2 ^ 32) :
  Safe sb (withInode i (fun ip => writei sb ip s src off n))
  := by
  apply safe_withInode
  intro m hcons hlive hno
  apply wp_writei benign_ne.tolerates rfl hcons hlive hn
  · intro m' hm'
    rw [hm']
    exact ⟨_, Saved.refl hcons, rfl, hlive.2, hno⟩
  · intro r f' m' hwritten
    have htype : (f' i).type = (sb.inode m.obs.view i).type := by rw [hwritten.fields]
    exact ⟨f', hwritten.toSaved, rfl, htype ▸ hlive.2, hwritten.noHole hno⟩

/-- A change of the fields that have nothing to do with the blocks. -/
theorem safe_updateInode {g : Inode → Inode}
    (hg : ∀ ip, ip.Fits → (g ip).Fits ∧ (g ip).inum = ip.inum ∧ (g ip).type = ip.type
      ∧ (g ip).size = ip.size ∧ (g ip).addrs = ip.addrs) :
  Safe sb (updateInode sb i g)
  := by
  apply safe_withInode
  intro m hcons hlive hno
  obtain ⟨hfits, hinum⟩ := hcons.wf i hlive.1
  obtain ⟨hfits', hinum', htype, hsize, haddrs⟩ := hg _ hfits
  rw [wp_bind]
  apply wp_iupdate_saved benign_ne.tolerates rfl hcons hlive.1 hfits' (hinum'.trans hinum) htype haddrs
  intro m' hsaved hcell _ _
  refine ⟨_, hsaved, ?_, ?_, ?_⟩
  · rw [update_self]
  · rw [update_self, htype]
    exact hlive.2
  · intro bn hbn hbelow
    rw [update_self, hsize] at hbelow
    rw [hcell]
    exact hno bn hbn hbelow

theorem Inode.Fits.setNlink (h : ip.Fits) (n : ℕ) : (ip.setNlink n).Fits :=
  ⟨h.type, h.major, h.minor, Nat.mod_lt _ (by decide), h.size, h.addrs⟩

theorem Inode.Fits.setDevice (h : ip.Fits) (major minor : ℕ) :
  (ip.setDevice major minor).Fits
  := ⟨h.type, Nat.mod_lt _ (by decide), Nat.mod_lt _ (by decide), h.nlink, h.size, h.addrs⟩

theorem safe_setNlink {n : Inode → ℕ} : Safe sb (updateInode sb i (fun ip => ip.setNlink (n ip))) := by
  apply safe_updateInode
  intro ip hip
  exact ⟨hip.setNlink _, rfl, rfl, rfl, rfl⟩

variable {name : CString}

theorem safe_dirlookupFrom : Safe sb (dirlookupFrom sb d size name fuel off) := by
  induction fuel generalizing off with
  | zero => exact preserves_pure _
  | succ fuel ih =>
    unfold dirlookupFrom
    split_ifs
    · apply Preserves.bind safe_readDirent
      rintro ⟨r, de⟩
      dsimp only
      split_ifs
      · exact preserves_throw (by decide)
      · exact ih
      · exact Preserves.ret safe_iget
      · exact ih
    · exact preserves_pure _

theorem safe_dirlookup : Safe sb (dirlookup sb d name) := by
  apply Preserves.bind safe_inodeOf
  intro dp
  split_ifs
  · exact preserves_throw (by decide)
  · exact safe_dirlookupFrom

theorem safe_freeDirent : Safe sb (freeDirent sb d size fuel off) := by
  induction fuel generalizing off with
  | zero => exact preserves_pure _
  | succ fuel ih =>
    unfold freeDirent
    split_ifs
    · apply Preserves.bind safe_readDirent
      rintro ⟨r, de⟩
      dsimp only
      split_ifs
      · exact preserves_throw (by decide)
      · exact preserves_pure _
      · exact ih
    · exact preserves_pure _

theorem safe_dirlink : Safe sb (dirlink sb d name inum) := by
  apply Preserves.bind safe_dirlookup
  rintro (_ | ⟨found, off⟩)
  · apply Preserves.bind safe_inodeOf
    intro dp
    apply Preserves.bind safe_freeDirent
    intro off
    exact Preserves.ret (safe_writei (by decide))
  · exact Preserves.ret safe_iput

theorem safe_linkDots {inum type : ℕ} : Safe sb (linkDots sb d inum type) := by
  unfold linkDots
  split_ifs
  · apply Preserves.bind safe_dirlink
    intro r
    split_ifs
    · exact preserves_pure _
    · exact Preserves.ret safe_dirlink
  · exact preserves_pure _

theorem safe_createFail : Safe sb (createFail sb d inum) := by
  apply Preserves.bind safe_setNlink
  intro _
  apply Preserves.bind safe_iput
  intro _
  exact Preserves.ret safe_iput

/-- `create`, once there is a new inode. -/
theorem safe_createNew {type major minor : ℕ} :
  Safe sb (createNew sb d name type major minor)
  := by
  intro s hs
  unfold createNew
  rw [wp_bind]
  apply wp_mono (wp_ialloc hs)
  · rintro (_ | inum) s' ⟨hs', hlt⟩
    · exact Preserves.ret safe_iput s' hs'
    · apply Preserves.bind (safe_ilock (hlt inum rfl)) _ s' hs'
      intro _
      apply Preserves.bind
      · apply safe_updateInode
        intro ip hip
        exact ⟨(hip.setDevice major minor).setNlink 1, rfl, rfl, rfl, rfl⟩
      intro _
      apply Preserves.bind safe_linkDots
      intro dots
      split
      · exact safe_createFail
      · apply Preserves.bind safe_dirlink
        intro r
        dsimp only
        split_ifs
        · exact safe_createFail
        · exact Preserves.bind safe_setNlink (fun _ => Preserves.ret safe_iput)
        · exact Preserves.ret safe_iput
  · intro _ _ he
    exact he

end Safe

end Xv6
